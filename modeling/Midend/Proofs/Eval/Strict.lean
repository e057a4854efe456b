import Midend.Demand.Parts
import Midend.Proofs.Arena.Write

/-!
# Strict evaluation

What a graph computes: every input of an apply is evaluated before the apply runs. A placeholder is
a value like any other that only lacks every use, so a run which takes one apart, calls it or
computes with it is stuck. Environments and mapped calls are left out. The evaluation notes which
apply called which graph.
-/

namespace Midend

/-! ### Values of runs -/

/-- Literals that are neither functions nor placeholders. -/
def Value.IsScalar (v : Value) : Prop := v.graph? = none ∧ v.prim? = none ∧ v ≠ .dead

abbrev Scalar := { v : Value // v.IsScalar }

/-- What a node evaluates to; `bound` is a function with arguments already in front. -/
inductive Datum where
  | literal (v : Value)
  | tuple (parts : List Datum)
  | bound (func : Datum) (args : List Datum)

namespace Datum

def isFunction : Datum → Bool
  | literal v => v.graph?.isSome || v.prim?.isSome
  | tuple _ => false
  | bound _ _ => true

/-- Whether a value holds neither functions nor placeholders. -/
inductive Plain : Datum → Prop
  | literal {v : Value} : v.IsScalar → Plain (.literal v)
  | tuple {parts : List Datum} : (∀ d ∈ parts, Plain d) → Plain (.tuple parts)

/-- Whether all graphs that a value names have a property. -/
inductive NamesOnly (P : GraphId → Prop) : Datum → Prop
  | literal {v : Value} : (∀ g, v.graph? = some g → P g) → NamesOnly P (.literal v)
  | tuple {parts : List Datum} : (∀ d ∈ parts, NamesOnly P d) → NamesOnly P (.tuple parts)
  | bound {func : Datum} {args : List Datum} : NamesOnly P func → (∀ d ∈ args, NamesOnly P d) →
      NamesOnly P (.bound func args)

/-- The part of a value that a path leads to. -/
def at? : Datum → Path → Option Datum
  | d, [] => some d
  | tuple parts, .index i :: p => parts[i]?.bind fun d => d.at? p
  | _, _ => none

variable {P : GraphId → Prop} {d : Datum} {parts : List Datum} {p q : Path}

theorem Plain.namesOnly (h : d.Plain) : d.NamesOnly P := by
  induction h with
  | literal hv => exact .literal fun g hg => by simp [hv.1] at hg
  | tuple _ ih => exact .tuple ih

theorem NamesOnly.of_tuple (h : (Datum.tuple parts).NamesOnly P) : ∀ d ∈ parts, d.NamesOnly P := by
  cases h with
  | tuple hparts => exact hparts

@[simp] theorem at?_nil (d : Datum) : d.at? [] = some d := by
  cases d <;> rfl

@[simp] theorem at?_tuple (parts : List Datum) (i : Nat) (p : Path) :
    (tuple parts).at? (.index i :: p) = parts[i]?.bind fun d => d.at? p := rfl

/-- A path that goes on leads into a tuple, by a position. -/
theorem at?_cons_eq_some {k : Step} {x : Datum} (h : d.at? (k :: p) = some x) :
    ∃ parts i part, d = tuple parts ∧ k = .index i ∧ parts[i]? = some part ∧
      part.at? p = some x := by
  cases d with
  | literal v => simp [at?] at h
  | bound func args => simp [at?] at h
  | tuple parts =>
    cases k with
    | key name => simp [at?] at h
    | index i =>
      obtain ⟨part, hpart, hx⟩ := Option.bind_eq_some_iff.mp h
      exact ⟨parts, i, part, rfl, rfl, hpart, hx⟩

theorem at?_append (d : Datum) (p q : Path) :
    d.at? (p ++ q) = (d.at? p).bind fun x => x.at? q := by
  induction p generalizing d with
  | nil => simp
  | cons k p ih =>
    cases d with
    | literal v => simp [at?]
    | bound func args => simp [at?]
    | tuple parts =>
      cases k with
      | key name => simp [at?]
      | index i => cases hi : parts[i]? <;> simp [hi, ih]

end Datum

/-! ### Operations -/

/-- What the operations on scalars compute. -/
abbrev Arithmetic := Prim → List Datum → Option Scalar

def Prim.run (op : Arithmetic) (p : Prim) (args : List Datum) : Option Datum :=
  match p with
  | .ret =>
    match args with
    | [d] => some d
    | _ => none
  | .makeTuple => some (.tuple args)
  | .tupleGet =>
    match args with
    | [.tuple parts, .literal (.int i)] => if 0 ≤ i then parts[i.toNat]? else none
    | _ => none
  | .tupleSet =>
    match args with
    | [.tuple parts, .literal (.int i), d] =>
      if 0 ≤ i ∧ i.toNat < parts.length then some (.tuple (parts.set i.toNat d)) else none
    | _ => none
  | .bindArgs =>
    match args with
    | f :: args => if f.isFunction then some (.bound f args) else none
    | [] => none
  | .switch =>
    match args with
    | [.literal (.bool b), d, d'] => some (if b then d else d')
    | _ => none
  | .envSet | .envGet | .arrayMap => none
  | _ => (op p args).map fun v => .literal v.1

theorem Prim.run_tupleGet_eq_some {op : Arithmetic} {args : List Datum} {d : Datum}
    (h : Prim.run op .tupleGet args = some d) : ∃ parts i,
      args = [.tuple parts, .literal (.int i)] ∧ 0 ≤ i ∧ parts[i.toNat]? = some d := by
  unfold Prim.run at h
  simp only at h
  split at h
  · next parts i =>
    split at h
    · next hi => exact ⟨parts, i, rfl, hi, h⟩
    · cases h
  · cases h

/-- The result of an operation names no graphs but those that its arguments name. -/
theorem Prim.namesOnly_run {P : GraphId → Prop} {op : Arithmetic} {p : Prim} {args : List Datum}
    {d : Datum} (h : p.run op args = some d) (hargs : ∀ x ∈ args, x.NamesOnly P) : d.NamesOnly P := by
  unfold Prim.run at h
  split at h
  · split at h
    · obtain rfl := Option.some.inj h
      exact hargs _ List.mem_cons_self
    · cases h
  · obtain rfl := Option.some.inj h
    exact .tuple hargs
  · split at h
    · next parts i =>
      split at h
      · exact (hargs _ List.mem_cons_self).of_tuple _ (List.mem_of_getElem? h)
      · cases h
    · cases h
  · split at h
    · next parts i x =>
      split at h
      · obtain rfl := Option.some.inj h
        refine .tuple fun y hy => ?_
        rcases List.mem_or_eq_of_mem_set hy with hy | rfl
        · exact (hargs _ List.mem_cons_self).of_tuple _ hy
        · exact hargs _ (by simp)
      · cases h
    · cases h
  · split at h
    · next f args =>
      split at h
      · obtain rfl := Option.some.inj h
        exact .bound (hargs _ List.mem_cons_self) fun x hx => hargs x (List.mem_cons_of_mem _ hx)
      · cases h
    · cases h
  · split at h
    · next b d₁ d₂ =>
      obtain rfl := Option.some.inj h
      cases b
      · exact hargs _ (by simp)
      · exact hargs _ (by simp)
    · cases h
  · cases h
  · cases h
  · cases h
  · obtain ⟨v, -, rfl⟩ := Option.map_eq_some_iff.mp h
    exact .literal fun g hg => by simp [v.2.1] at hg

/-! ### Calls -/

/-- A result with the calls made for it: each apply with the graph that it ran. -/
abbrev Traced (α : Type) := Option (α × List (NodeId × GraphId))

def evalAll (node : NodeId → Traced Datum) : List NodeId → Traced (List Datum)
  | [] => some ([], [])
  | n :: ns =>
    match node n, evalAll node ns with
    | some (d, cs), some (ds, cs') => some (d :: ds, cs ++ cs')
    | _, _ => none

/-- Runs a function on arguments for the apply `n`; `body` runs a graph. -/
def invoke (op : Arithmetic) (n : NodeId) (body : GraphId → List Datum → Traced Datum) :
    Datum → List Datum → Traced Datum
  | .literal (.graph g), args => (body g args).map fun (d, cs) => (d, (n, g) :: cs)
  | .literal (.prim p), args => (p.run op args).map (·, [])
  | .bound f before, args => invoke op n body f (before ++ args)
  | _, _ => none

/-- Evaluates the inputs of the apply `n` and runs the first on the others. -/
def evalApply (op : Arithmetic) (n : NodeId) (node : NodeId → Traced Datum)
    (body : GraphId → List Datum → Traced Datum) (inputs : List NodeId) : Traced Datum :=
  match evalAll node inputs with
  | some (f :: args, cs) => (invoke op n body f args).map fun (d, cs') => (d, cs ++ cs')
  | _ => none

/-- The values of the parameters of a call. -/
abbrev Frame := NodeId → Option Datum

namespace Arena

/-- The frame of a call and the output to evaluate in it. -/
def enter? (a : Arena) (g : GraphId) (args : List Datum) : Option (Frame × NodeId) :=
  if (a.parameters g).length = args.length then
    (a.output? g).map fun out => (fun n => ((a.parameters g).zip args).lookup n, out)
  else none

/-- The value of a node in a frame, following inputs and calls no deeper than `depth`. -/
def eval (a : Arena) (op : Arithmetic) : Nat → Frame → NodeId → Traced Datum
  | 0, _, _ => none
  | depth + 1, frame, n =>
    match a.kind? n with
    | some (.constant v) => some (.literal v, [])
    | some .parameter => (frame n).map (·, [])
    | some (.apply inputs) =>
      evalApply op n (a.eval op depth frame)
        (fun g args => (a.enter? g args).bind fun (frame, out) => a.eval op depth frame out) inputs
    | none => none

/-- What a graph returns, in calls no deeper than `depth`. -/
def call (a : Arena) (op : Arithmetic) (depth : Nat) (g : GraphId) (args : List Datum) :
    Traced Datum :=
  (a.enter? g args).bind fun (frame, out) => a.eval op depth frame out

/-- Whether `g` returns `d` for the arguments, with the calls made on the way. -/
def Returns (a : Arena) (op : Arithmetic) (g : GraphId) (args : List Datum) (d : Datum)
    (calls : List (NodeId × GraphId)) : Prop :=
  ∃ depth, a.call op depth g args = some (d, calls)

end Arena

/-! ### What evaluation can do -/

section Results

variable {P : GraphId → Prop} {C : NodeId × GraphId → Prop} {op : Arithmetic} {n : NodeId}
  {node node' : NodeId → Traced Datum} {body : GraphId → List Datum → Traced Datum}
  {ns ns' : List NodeId} {ds : List Datum} {cs : List (NodeId × GraphId)} {d f : Datum}
  {args : List Datum}

theorem evalAll_cons_eq_some : evalAll node (n :: ns) = some (ds, cs) ↔ ∃ d ds' cs₁ cs₂,
    node n = some (d, cs₁) ∧ evalAll node ns = some (ds', cs₂) ∧ ds = d :: ds' ∧
      cs = cs₁ ++ cs₂ := by
  rw [evalAll]
  cases node n with
  | none => simp
  | some r =>
    cases evalAll node ns with
    | none => simp
    | some rs =>
      constructor
      · intro h
        obtain ⟨rfl, rfl⟩ := Prod.mk.inj (Option.some.inj h)
        exact ⟨_, _, _, _, rfl, rfl, rfl, rfl⟩
      · rintro ⟨d, ds', cs₁, cs₂, hr, hrs, rfl, rfl⟩
        obtain rfl := Option.some.inj hr
        obtain rfl := Option.some.inj hrs
        rfl

theorem mem_of_evalAll (h : evalAll node ns = some (ds, cs)) (hd : d ∈ ds) :
    ∃ n ∈ ns, ∃ cs', node n = some (d, cs') := by
  induction ns generalizing ds cs with
  | nil =>
    obtain ⟨rfl, -⟩ := Prod.mk.inj (Option.some.inj h)
    exact absurd hd List.not_mem_nil
  | cons n ns ih =>
    obtain ⟨d', ds', cs₁, cs₂, hn, hns, rfl, rfl⟩ := evalAll_cons_eq_some.mp h
    rcases List.mem_cons.mp hd with rfl | hd
    · exact ⟨n, List.mem_cons_self, cs₁, hn⟩
    · obtain ⟨m, hm, hsome⟩ := ih hns hd
      exact ⟨m, List.mem_cons_of_mem n hm, hsome⟩

/-- Where each node of a list has a counterpart with a related value, so has the list. -/
theorem evalAll_related {R : Nat → Datum → Datum → Prop} (h : evalAll node ns = some (ds, cs))
    (hC : ∀ c ∈ cs, C c) (hlen : ns'.length = ns.length)
    (hR : ∀ i m m' d cs, ns[i]? = some m → ns'[i]? = some m' → node m = some (d, cs) →
      (∀ c ∈ cs, C c) → ∃ d' cs', node' m' = some (d', cs') ∧ R i d d') :
    ∃ ds' cs', evalAll node' ns' = some (ds', cs') ∧ ds'.length = ds.length ∧
      ∀ i d d', ds[i]? = some d → ds'[i]? = some d' → R i d d' := by
  induction ns generalizing ns' ds cs R with
  | nil =>
    obtain ⟨rfl, -⟩ := Prod.mk.inj (Option.some.inj h)
    obtain rfl := List.length_eq_zero_iff.mp hlen
    exact ⟨[], [], rfl, rfl, fun i d d' hd => by simp at hd⟩
  | cons n ns ih =>
    obtain ⟨d, ds, cs₁, cs₂, hn, hns, rfl, rfl⟩ := evalAll_cons_eq_some.mp h
    cases ns' with
    | nil => simp at hlen
    | cons n' ns' =>
      obtain ⟨d', cs₁', hn', hd'⟩ := hR 0 n n' d cs₁ rfl rfl hn fun c hc =>
        hC c (List.mem_append_left _ hc)
      obtain ⟨ds', cs₂', hns', hlen', hall⟩ := ih (R := fun i => R (i + 1)) hns
        (fun c hc => hC c (List.mem_append_right _ hc)) (Nat.succ.inj hlen)
        fun i m m' d cs hm hm' => hR (i + 1) m m' d cs hm hm'
      refine ⟨d' :: ds', cs₁' ++ cs₂', ?_, congrArg (· + 1) hlen', fun i x x' hx hx' => ?_⟩
      · exact evalAll_cons_eq_some.mpr ⟨_, _, _, _, hn', hns', rfl, rfl⟩
      · cases i with
        | zero =>
          obtain rfl := Option.some.inj hx
          obtain rfl := Option.some.inj hx'
          exact hd'
        | succ i => exact hall i x x' hx hx'

/-- A call runs a graph on some arguments, noted first, or comes down to an operation. -/
theorem invoke_cases (h : invoke op n body f args = some (d, cs)) (hf : f.NamesOnly P)
    (hargs : ∀ x ∈ args, x.NamesOnly P) :
    (∃ g args' cs', P g ∧ (∀ x ∈ args', x.NamesOnly P) ∧ body g args' = some (d, cs') ∧
      cs = (n, g) :: cs' ∧ ∀ body', invoke op n body' f args =
        (body' g args').map fun (d, cs) => (d, (n, g) :: cs)) ∨
    (d.NamesOnly P ∧ ∀ body', invoke op n body' f args = some (d, cs)) := by
  fun_induction invoke op n body f args with
  | case1 g args =>
    obtain ⟨⟨d', cs'⟩, hbody, heq⟩ := Option.map_eq_some_iff.mp h
    obtain ⟨rfl, rfl⟩ := Prod.mk.inj heq
    refine Or.inl ⟨g, args, cs', ?_, hargs, hbody, rfl, fun body' => rfl⟩
    cases hf with
    | literal hg => exact hg g rfl
  | case2 p args =>
    obtain ⟨d', hrun, heq⟩ := Option.map_eq_some_iff.mp h
    obtain ⟨rfl, rfl⟩ := Prod.mk.inj heq
    exact Or.inr ⟨Prim.namesOnly_run hrun hargs, fun body' => by simp [invoke, hrun]⟩
  | case3 f before args ih =>
    cases hf with
    | bound hf hbefore =>
      refine ih h hf fun x hx => ?_
      rcases List.mem_append.mp hx with hx | hx
      · exact hbefore x hx
      · exact hargs x hx
  | case4 => cases h

theorem evalApply_of_evalAll (h : evalAll node ns = some (f :: args, cs)) :
    evalApply op n node body ns =
      (invoke op n body f args).map fun (d, cs') => (d, cs ++ cs') := by
  rw [evalApply, h]

theorem evalApply_eq_some (h : evalApply op n node body ns = some (d, cs)) :
    ∃ f args cs₁ cs₂, evalAll node ns = some (f :: args, cs₁) ∧
      invoke op n body f args = some (d, cs₂) ∧ cs = cs₁ ++ cs₂ := by
  unfold evalApply at h
  split at h
  · next f args cs₁ hall =>
    obtain ⟨⟨d', cs₂⟩, hinv, heq⟩ := Option.map_eq_some_iff.mp h
    obtain ⟨rfl, rfl⟩ := Prod.mk.inj heq
    exact ⟨f, args, cs₁, cs₂, hall, hinv, rfl⟩
  · cases h

end Results

namespace Arena

variable {a : Arena} {op : Arithmetic} {g : GraphId} {args : List Datum} {frame : Frame}
  {out n : NodeId} {depth : Nat} {d : Datum} {v : Value} {cs : List (NodeId × GraphId)}

theorem enter?_eq_some (h : a.enter? g args = some (frame, out)) :
    a.output? g = some out ∧ ∀ n d, frame n = some d → d ∈ args := by
  unfold enter? at h
  split at h
  · obtain ⟨out', hout, heq⟩ := Option.map_eq_some_iff.mp h
    obtain ⟨rfl, rfl⟩ := Prod.mk.inj heq
    refine ⟨hout, fun n d hd => ?_⟩
    obtain ⟨pre, post, hsplit, -⟩ := List.lookup_eq_some_iff.mp hd
    have hmem : (n, d) ∈ (a.parameters g).zip args := by
      rw [hsplit]
      exact List.mem_append_right _ List.mem_cons_self
    exact (List.of_mem_zip hmem).2
  · cases h

theorem eval_of_value? (hv : a.value? n = some v) :
    a.eval op (depth + 1) frame n = some (.literal v, []) := by
  simp only [eval, kind?_of_value? hv]

theorem eval_of_isParameter (hn : a.isParameter n = true) :
    a.eval op (depth + 1) frame n = (frame n).map (·, []) := by
  have hk : a.kind? n = some .parameter := by simpa [isParameter] using hn
  simp only [eval, hk]

theorem eval_of_isApply (hn : a.isApply n = true) :
    a.eval op (depth + 1) frame n =
      evalApply op n (a.eval op depth frame) (a.call op depth) (a.inputs n) := by
  unfold isApply at hn
  split at hn
  · next ns hk =>
    have hin : a.inputs n = ns := by simp only [inputs, hk, NodeKind.inputs]
    rw [hin]
    simp only [eval, hk]
    rfl
  · cases hn

theorem eval_eq_some_of_value? (hv : a.value? n = some v)
    (h : a.eval op depth frame n = some (d, cs)) : d = .literal v ∧ cs = [] ∧ 0 < depth := by
  cases depth with
  | zero => simp [eval] at h
  | succ depth =>
    rw [eval_of_value? hv] at h
    obtain ⟨rfl, rfl⟩ := Prod.mk.inj (Option.some.inj h)
    exact ⟨rfl, rfl, Nat.succ_pos depth⟩

/-- What has a value is a constant, a parameter or an apply. -/
theorem eval_cases (h : a.eval op (depth + 1) frame n = some (d, cs)) :
    (∃ v, a.value? n = some v ∧ d = .literal v) ∨ (a.isParameter n = true ∧ frame n = some d) ∨
      a.isApply n = true := by
  cases hk : a.kind? n with
  | none => simp [eval, hk] at h
  | some k =>
    cases k with
    | constant v =>
      simp only [eval, hk, Option.some.injEq, Prod.mk.injEq] at h
      exact Or.inl ⟨v, by simp [value?, hk, NodeKind.value?], h.1.symm⟩
    | parameter =>
      simp only [eval, hk, Option.map_eq_some_iff, Prod.mk.injEq] at h
      obtain ⟨d', hd', rfl, -⟩ := h
      exact Or.inr (Or.inl ⟨by simp [isParameter, hk], hd'⟩)
    | apply inputs => exact Or.inr (Or.inr (by simp [isApply, hk]))

/-- Indexing a tuple by a constant takes one step into what is indexed. -/
theorem eval_tupleGet_iff {f base key : NodeId} {k : Step} (hin : a.inputs n = [f, base, key])
    (hf : a.value? f = some (.prim .tupleGet)) (hk : a.step? key = some k) :
    a.eval op (depth + 1) frame n = some (d, cs) ↔
      ∃ b, a.eval op depth frame base = some (b, cs) ∧ b.at? [k] = some d := by
  obtain ⟨w, hw, hstep⟩ := Option.bind_eq_some_iff.mp hk
  have happ : a.isApply n = true := isApply_of_mem_inputs (m := f) (by simp [hin])
  rw [eval_of_isApply happ, hin]
  constructor
  · intro h
    obtain ⟨fv, args, cs₁, cs₂, hall, hinv, rfl⟩ := evalApply_eq_some h
    obtain ⟨_, rest, c₁, c₂, hef, hrest, heq, rfl⟩ := evalAll_cons_eq_some.mp hall
    obtain ⟨rfl, rfl⟩ := List.cons.inj heq
    obtain ⟨b, rest', c₃, c₄, heb, hrest', rfl, rfl⟩ := evalAll_cons_eq_some.mp hrest
    obtain ⟨kd, rest'', c₅, c₆, hek, hnil, rfl, rfl⟩ := evalAll_cons_eq_some.mp hrest'
    obtain ⟨rfl, rfl⟩ := Prod.mk.inj (Option.some.inj hnil)
    obtain ⟨rfl, rfl, -⟩ := eval_eq_some_of_value? hf hef
    obtain ⟨rfl, rfl, -⟩ := eval_eq_some_of_value? hw hek
    obtain ⟨d', hrun, hd⟩ := Option.map_eq_some_iff.mp hinv
    obtain ⟨rfl, rfl⟩ := Prod.mk.inj hd
    obtain ⟨parts, i, hargs, hi, hpart⟩ := Prim.run_tupleGet_eq_some hrun
    obtain ⟨rfl, hlit⟩ := List.cons.inj hargs
    obtain rfl : w = .int i := by simpa using hlit
    have hk' : k = .index i.toNat := by simpa [Step.ofValue?, hi, eq_comm] using hstep
    refine ⟨.tuple parts, by simpa using heb, ?_⟩
    rw [hk', Datum.at?_tuple, hpart]
    exact Datum.at?_nil d'
  · rintro ⟨b, heb, hb⟩
    obtain ⟨parts, i, part, rfl, rfl, hpart, hd⟩ := Datum.at?_cons_eq_some hb
    rw [Datum.at?_nil, Option.some.injEq] at hd
    obtain ⟨j, rfl, hj, rfl⟩ : ∃ j, w = .int j ∧ 0 ≤ j ∧ j.toNat = i := by
      cases w with
      | int j =>
        by_cases hj : 0 ≤ j
        · exact ⟨j, rfl, hj, by simpa [Step.ofValue?, hj] using hstep⟩
        · simp [Step.ofValue?, hj] at hstep
      | _ => simp [Step.ofValue?] at hstep
    cases depth with
    | zero => cases heb
    | succ depth =>
      simp [evalApply, evalAll, eval_of_value? hf, eval_of_value? hw, heb, invoke, Prim.run, hj,
        hpart, hd]

/-- A tuple holds what its parts evaluate to. -/
theorem eval_makeTuple_iff {f : NodeId} {parts : List NodeId} (hin : a.inputs n = f :: parts)
    (hf : a.value? f = some (.prim .makeTuple)) :
    a.eval op (depth + 1) frame n = some (d, cs) ↔
      0 < depth ∧ ∃ ds, evalAll (a.eval op depth frame) parts = some (ds, cs) ∧ d = .tuple ds := by
  have happ : a.isApply n = true := isApply_of_mem_inputs (m := f) (by simp [hin])
  rw [eval_of_isApply happ, hin]
  constructor
  · intro h
    obtain ⟨fv, args, cs₁, cs₂, hall, hinv, rfl⟩ := evalApply_eq_some h
    obtain ⟨_, ds, c₁, c₂, hef, hds, heq, rfl⟩ := evalAll_cons_eq_some.mp hall
    obtain ⟨rfl, rfl⟩ := List.cons.inj heq
    obtain ⟨rfl, rfl, hdepth⟩ := eval_eq_some_of_value? hf hef
    obtain ⟨d', hrun, hd⟩ := Option.map_eq_some_iff.mp hinv
    obtain ⟨rfl, rfl⟩ := Prod.mk.inj hd
    exact ⟨hdepth, _, by simpa using hds, (Option.some.inj hrun).symm⟩
  · rintro ⟨hdepth, ds, hds, rfl⟩
    cases depth with
    | zero => exact absurd hdepth (Nat.lt_irrefl 0)
    | succ depth => simp [evalApply, evalAll, eval_of_value? hf, hds, invoke, Prim.run]

end Arena

end Midend
