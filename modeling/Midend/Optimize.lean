import Midend.Config
import Midend.Demand.Cut
import Midend.Merge

/-!
# Running passes in rounds

The passes of a configuration are run in order, round after round, until a round reports no change
or no round is left.
-/

namespace Midend

/-- What each pass reported, in the order of its run. -/
abbrev Round := List (Pass × Bool)

/-- What happened in each round, and whether the last one was quiet. -/
structure Report where
  rounds : List Round
  converged : Bool
  deriving DecidableEq, Repr

namespace Store

variable [Hashable Shape]

/-- Runs one pass; the answer is whether it changed anything and reports it. -/
def runPass (s : Store) (c : Config) (root : GraphId) (p : Pass) : Store × Except Fault Bool :=
  match p with
  | .merge =>
    let r := s.mergeEqual root
    (r.1, r.2.map (· && c.reports p))
  | .cut =>
    let r := s.cutDead root
    (r.1, r.2.map fun k => 0 < k && c.reports p)

/-- Runs the passes of a list up to the first that fails. -/
def runRound (s : Store) (c : Config) (root : GraphId) : List Pass → Store × Except Fault Round
  | [] => (s, .ok [])
  | p :: ps =>
    match s.runPass c root p with
    | (s, .error f) => (s, .error f)
    | (s, .ok changed) =>
      let r := s.runRound c root ps
      (r.1, r.2.map ((p, changed) :: ·))

/-- Runs each pass once and goes on after failures. -/
def runEach (s : Store) (c : Config) (root : GraphId) :
    List Pass → Store × List (Pass × Except Fault Bool)
  | [] => (s, [])
  | p :: ps =>
    let (s, r) := s.runPass c root p
    let (s, rs) := s.runEach c root ps
    (s, (p, r) :: rs)

/-- Runs rounds until one is quiet; at most as many as given, and one more. -/
def runRounds (s : Store) (c : Config) (root : GraphId) : Nat → Store × Except Fault Report
  | 0 =>
    match s.runRound c root c.passes with
    | (s, .error f) => (s, .error f)
    | (s, .ok round) => (s, .ok ⟨[round], !round.any Prod.snd⟩)
  | more + 1 =>
    match s.runRound c root c.passes with
    | (s, .error f) => (s, .error f)
    | (s, .ok round) =>
      if round.any Prod.snd then
        let r := s.runRounds c root more
        (r.1, r.2.map fun report => { report with rounds := round :: report.rounds })
      else (s, .ok ⟨[round], true⟩)

/-- Runs the passes on `root` until a quiet round or until the rounds are used up. -/
def optimize (s : Store) (c : Config) (root : GraphId) : Store × Except Fault Report :=
  s.runRounds c root (c.maxRounds - 1)

theorem length_rounds_runRounds {s : Store} {c : Config} {root : GraphId} {more : Nat}
    {report : Report} (h : (s.runRounds c root more).2 = .ok report) :
    1 ≤ report.rounds.length ∧ report.rounds.length ≤ more + 1 := by
  induction more generalizing s report with
  | zero =>
    unfold runRounds at h
    split at h
    · cases h
    · obtain rfl := Except.ok.inj h
      simp
  | succ more ih =>
    unfold runRounds at h
    split at h
    · cases h
    · next s' round _ =>
      split at h
      · cases hr : (s'.runRounds c root more).2 with
        | error f => simp [hr, Except.map] at h
        | ok rest =>
          simp only [hr, Except.map] at h
          obtain rfl := Except.ok.inj h
          have := ih hr
          simp only [List.length_cons]
          omega
      · obtain rfl := Except.ok.inj h
        simp

/-- There is at least one round, and there are at most as many as allowed. -/
theorem length_rounds_optimize {s : Store} {c : Config} {root : GraphId} {report : Report}
    (h : (s.optimize c root).2 = .ok report) :
    1 ≤ report.rounds.length ∧ report.rounds.length ≤ max 1 c.maxRounds := by
  have := length_rounds_runRounds h
  omega

end Store

end Midend
