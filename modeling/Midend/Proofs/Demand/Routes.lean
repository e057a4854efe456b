import Midend.Demand.Parts
import Midend.Proofs.Live.Agrees

/-!
# Routes through tuples and environments

Following a path from a node selects a part: a position of a tuple, or the entry of the uppermost
environment layer that writes the key. On the way one slot leads into the next. A slot that is
entered through nodes with a single use can be entered in no other way.
-/

namespace Midend

namespace Arena

variable {a : Arena} {P Q : NodeId → Prop} {n m out env value : NodeId} {parts : List NodeId}
  {e e₁ f f' : Edge} {k : Step} {p : Path}

/-- Whether `n` makes a tuple of the nodes given. -/
def IsTuple (a : Arena) (n : NodeId) (parts : List NodeId) : Prop :=
  a.applied? n = some .makeTuple ∧ ∃ func, a.inputs n = func :: parts

/-- Whether `n` puts a value into an environment under the constant key `k`. -/
def IsLayer (a : Arena) (n : NodeId) (k : Step) (env value : NodeId) : Prop :=
  a.applied? n = some .envSet ∧ ∃ func key, a.inputs n = [func, env, key, value] ∧
    a.step? key = some k

/-- The node that a path selects from another. -/
inductive Selects (a : Arena) : NodeId → Path → NodeId → Prop
  | here (n : NodeId) : Selects a n [] n
  | element {n m out : NodeId} {parts : List NodeId} {i : Nat} {p : Path} :
      a.IsTuple n parts → parts[i]? = some m → Selects a m p out → Selects a n (.index i :: p) out
  | entry {n env value out : NodeId} {k : Step} {p : Path} :
      a.IsLayer n k env value → Selects a value p out → Selects a n (k :: p) out
  | under {n env value out : NodeId} {k k' : Step} {p : Path} :
      a.IsLayer n k env value → k' ≠ k → Selects a env (k' :: p) out → Selects a n (k' :: p) out

/-- The slot that a path leads to from another one, over nodes with a property. -/
inductive Route (a : Arena) (P : NodeId → Prop) : Edge → Path → Edge → Prop
  | here (e : Edge) : Route a P e [] e
  | element {e e' : Edge} {n m : NodeId} {parts : List NodeId} {i : Nat} {p : Path} :
      a.slot? e = some n → P n → a.IsTuple n parts → parts[i]? = some m →
      Route a P ⟨n, i + 1⟩ p e' → Route a P e (.index i :: p) e'
  | entry {e e' : Edge} {n env value : NodeId} {k : Step} {p : Path} :
      a.slot? e = some n → P n → a.IsLayer n k env value →
      Route a P ⟨n, 3⟩ p e' → Route a P e (k :: p) e'
  | under {e e' : Edge} {n env value : NodeId} {k k' : Step} {p : Path} :
      a.slot? e = some n → P n → a.IsLayer n k env value → k' ≠ k →
      Route a P ⟨n, 1⟩ (k' :: p) e' → Route a P e (k' :: p) e'

/-- The slot that a reader of a path ends up at. -/
def Reads (a : Arena) (e : Edge) (p : Path) (e' : Edge) : Prop := a.Route (fun _ => True) e p e'

theorem IsTuple.slot? {i : Nat} (h : a.IsTuple n parts) : a.slot? ⟨n, i + 1⟩ = parts[i]? := by
  obtain ⟨_, func, hin⟩ := h
  simp [Arena.slot?, hin]

theorem IsLayer.slot?_env (h : a.IsLayer n k env value) : a.slot? ⟨n, 1⟩ = some env := by
  obtain ⟨_, func, key, hin, _⟩ := h
  simp [Arena.slot?, hin]

theorem IsLayer.slot?_value (h : a.IsLayer n k env value) : a.slot? ⟨n, 3⟩ = some value := by
  obtain ⟨_, func, key, hin, _⟩ := h
  simp [Arena.slot?, hin]

theorem IsTuple.not_isLayer (h : a.IsTuple n parts) : ¬ a.IsLayer n k env value := by
  rintro ⟨happ, _⟩
  rw [h.1] at happ
  cases happ

theorem IsTuple.unique {parts' : List NodeId} (h : a.IsTuple n parts) (h' : a.IsTuple n parts') :
    parts = parts' := by
  obtain ⟨_, func, hin⟩ := h
  obtain ⟨_, func', hin'⟩ := h'
  rw [hin, List.cons.injEq] at hin'
  exact hin'.2

theorem IsLayer.unique {k' : Step} {env' value' : NodeId} (h : a.IsLayer n k env value)
    (h' : a.IsLayer n k' env' value') : k = k' ∧ env = env' ∧ value = value' := by
  obtain ⟨_, func, key, hin, hk⟩ := h
  obtain ⟨_, func', key', hin', hk'⟩ := h'
  rw [hin] at hin'
  simp only [List.cons.injEq, and_true] at hin'
  obtain ⟨_, henv, hkey, hvalue⟩ := hin'
  rw [← hkey, hk, Option.some.injEq] at hk'
  exact ⟨hk', henv, hvalue⟩

theorem Route.mono {e' : Edge} (hPQ : ∀ n, P n → Q n) (h : a.Route P e p e') :
    a.Route Q e p e' := by
  induction h with
  | here e => exact .here e
  | element hs hP ht hm _ ih => exact .element hs (hPQ _ hP) ht hm ih
  | entry hs hP hl _ ih => exact .entry hs (hPQ _ hP) hl ih
  | under hs hP hl hk _ ih => exact .under hs (hPQ _ hP) hl hk ih

/-- What stands in the slot at the end of a route is what the path selects. -/
theorem Route.selects {e' : Edge} (h : a.Route P e p e') (hs : a.slot? e = some n)
    (hs' : a.slot? e' = some m) : a.Selects n p m := by
  induction h generalizing n with
  | here e =>
    obtain rfl : n = m := Option.some.inj (hs.symm.trans hs')
    exact .here n
  | element he _ ht hm _ ih =>
    obtain rfl := Option.some.inj (he.symm.trans hs)
    exact .element ht hm (ih (ht.slot?.trans hm) hs')
  | entry he _ hl _ ih =>
    obtain rfl := Option.some.inj (he.symm.trans hs)
    exact .entry hl (ih hl.slot?_value hs')
  | under he _ hl hk _ ih =>
    obtain rfl := Option.some.inj (he.symm.trans hs)
    exact .under hl hk (ih hl.slot?_env hs')

theorem Selects.unique {out' : NodeId} (h : a.Selects n p out) (h' : a.Selects n p out') :
    out = out' := by
  induction h with
  | here n =>
    cases h'
    rfl
  | element ht hm _ ih =>
    cases h' with
    | element ht' hm' h' =>
      obtain rfl := ht.unique ht'
      exact ih (Option.some.inj (hm.symm.trans hm') ▸ h')
    | entry hl' _ => exact absurd hl' ht.not_isLayer
    | under hl' _ _ => exact absurd hl' ht.not_isLayer
  | entry hl _ ih =>
    cases h' with
    | element ht' _ _ => exact absurd hl ht'.not_isLayer
    | entry hl' h' => exact ih ((hl.unique hl').2.2 ▸ h')
    | under hl' hk _ => exact absurd (hl.unique hl').1 hk
  | under hl hk _ ih =>
    cases h' with
    | element ht' _ _ => exact absurd hl ht'.not_isLayer
    | entry hl' _ => exact absurd (hl.unique hl').1.symm hk
    | under hl' _ h' => exact ih ((hl.unique hl').2.1 ▸ h')

/-! ### From slot to slot -/

/-- Whether `e'` is a slot of the node that `e` holds, and that node has a property. -/
def Inside (a : Arena) (P : NodeId → Prop) (e e' : Edge) : Prop :=
  a.slot? e = some e'.owner ∧ P e'.owner

/-- Whether `e'` is reached from `e` through nodes with a property. -/
def Within (a : Arena) (P : NodeId → Prop) (e e' : Edge) : Prop :=
  Relation.ReflTransGen (a.Inside P) e e'

theorem Within.mono (hPQ : ∀ n, P n → Q n) (h : a.Within P e e₁) : a.Within Q e e₁ := by
  induction h with
  | refl => exact Relation.ReflTransGen.refl
  | tail _ hi ih => exact Relation.ReflTransGen.tail ih ⟨hi.1, hPQ _ hi.2⟩

theorem Within.trans (h : a.Within P e e₁) (h' : a.Within P e₁ f) : a.Within P e f :=
  Relation.ReflTransGen.trans h h'

theorem Route.within {e' : Edge} (h : a.Route P e p e') : a.Within P e e' := by
  induction h with
  | here e => exact Relation.ReflTransGen.refl
  | element hs hP _ _ _ ih => exact Relation.ReflTransGen.head ⟨hs, hP⟩ ih
  | entry hs hP _ _ ih => exact Relation.ReflTransGen.head ⟨hs, hP⟩ ih
  | under hs hP _ _ _ ih => exact Relation.ReflTransGen.head ⟨hs, hP⟩ ih

theorem Route.append {e' : Edge} {q : Path} (h : a.Route P e p e₁) (h' : a.Route P e₁ q e') :
    a.Route P e (p ++ q) e' := by
  induction h with
  | here e => exact h'
  | element hs hP ht hm _ ih => exact .element hs hP ht hm (ih h')
  | entry hs hP hl _ ih => exact .entry hs hP hl (ih h')
  | under hs hP hl hk _ ih => exact .under hs hP hl hk (ih h')

/-- A route passes a slot at every prefix of its path. -/
theorem Route.exists_split {e' : Edge} {q r : Path} (h : a.Route P e r e') (hr : r = p ++ q) :
    ∃ e₁, a.Route P e p e₁ ∧ a.Route P e₁ q e' := by
  induction h generalizing p with
  | here e =>
    obtain ⟨rfl, rfl⟩ := List.append_eq_nil_iff.mp hr.symm
    exact ⟨e, .here e, .here e⟩
  | @element e e' n m parts i r hs hP ht hm hrest ih =>
    cases p with
    | nil =>
      rw [List.nil_append] at hr
      exact ⟨e, .here e, hr ▸ .element hs hP ht hm hrest⟩
    | cons k p =>
      obtain ⟨rfl, rfl⟩ := List.cons.inj hr
      obtain ⟨e₁, hp, hq⟩ := ih rfl
      exact ⟨e₁, .element hs hP ht hm hp, hq⟩
  | @entry e e' n env value k r hs hP hl hrest ih =>
    cases p with
    | nil =>
      rw [List.nil_append] at hr
      exact ⟨e, .here e, hr ▸ .entry hs hP hl hrest⟩
    | cons k p =>
      obtain ⟨rfl, rfl⟩ := List.cons.inj hr
      obtain ⟨e₁, hp, hq⟩ := ih rfl
      exact ⟨e₁, .entry hs hP hl hp, hq⟩
  | @under e e' n env value k k' r hs hP hl hk hrest ih =>
    cases p with
    | nil =>
      rw [List.nil_append] at hr
      exact ⟨e, .here e, hr ▸ .under hs hP hl hk hrest⟩
    | cons k p =>
      obtain ⟨rfl, rfl⟩ := List.cons.inj hr
      obtain ⟨e₁, hp, hq⟩ := ih (p := k' :: p) rfl
      exact ⟨e₁, .under hs hP hl hk hp, hq⟩

theorem Within.under (h : a.Within P e e₁) : a.Under e.owner e₁.owner := by
  induction h with
  | refl => exact Under.refl a e.owner
  | tail _ hi ih => exact ih.trans (under_of_mem_inputs (mem_inputs_of_slot? hi.1))

/-- What the slot at the end holds lies under what the slot at the start holds. -/
theorem Within.under_slot (h : a.Within P e e₁) (hn : a.slot? e₁ = some n) :
    ∃ m, a.slot? e = some m ∧ a.Under m n := by
  induction h generalizing n with
  | refl => exact ⟨n, hn, Under.refl a n⟩
  | tail _ hi ih =>
    obtain ⟨m, hm, hu⟩ := ih hi.1
    exact ⟨m, hm, hu.trans (under_of_mem_inputs (mem_inputs_of_slot? hn))⟩

/-- Without cycles a slot of a node is reached from no other slot of the node. -/
theorem Acyclic.index_eq_of_within {i j : Nat} (hac : a.Acyclic)
    (h : a.Within P ⟨n, i⟩ ⟨n, j⟩) : i = j := by
  rcases Relation.ReflTransGen.cases_head h with heq | ⟨e₁, hi, hrest⟩
  · exact (Edge.mk.inj heq).2
  · have hin : e₁.owner ∈ a.inputs n := mem_inputs_of_slot? (e := ⟨n, i⟩) hi.1
    exact absurd (Within.under hrest) (hac.not_under hin)

/-- The slots of what lies under the node in a slot are reached from that slot. -/
theorem within_of_under (hm : a.slot? e = some m) (hu : a.Under m n) (i : Nat) :
    a.Within (fun _ => True) e ⟨n, i⟩ := by
  induction hu generalizing i with
  | refl => exact Relation.ReflTransGen.single ⟨hm, trivial⟩
  | tail _ hin ih =>
    obtain ⟨j, hj⟩ := exists_slot?_of_mem hin
    exact (ih j).tail ⟨hj, trivial⟩

end Arena

namespace Live

open Arena (Within Route Under)

variable {a : Arena} {l : Live} {lax : Prop} {n : NodeId} {e e' f f' : Edge} {p : Path}

/-- Whether at most one slot of a live node holds `n`. -/
def Single (l : Live) (n : NodeId) : Prop := l.useCount n ≤ 1

/-- The slot that a reader of a path ends up at, if everything passed is used only once. -/
def Opens (l : Live) (a : Arena) (e : Edge) (p : Path) (e' : Edge) : Prop := a.Route l.Single e p e'

theorem Opens.reads (h : l.Opens a e p e') : a.Reads e p e' := Route.mono (fun _ _ => trivial) h

/-- If one way from `e` into `e'` passes only nodes with a single use, then every way does. -/
theorem Agrees.single_of_within {i : Nat} (h : Agrees a l (.upTo lax) []) (hac : a.Acyclic)
    (he : e.owner ∈ l.nodes) (hsole : a.Within l.Single e e')
    (hef : a.Within (fun _ => True) e f) (hn : a.slot? f = some n)
    (hne : a.Within (fun _ => True) ⟨n, i⟩ e') : l.Single n := by
  have huse : ∀ {n e}, e ∈ l.usesOf n ↔ e.owner ∈ l.nodes ∧ a.slot? e = some n :=
    h.mem_usesOf fun _ _ hf => hf
  have hin : n ∈ a.inputs f.owner := Arena.mem_inputs_of_slot? hn
  induction hsole with
  | refl => exact absurd (hne.under.trans hef.under) (hac.not_under hin)
  | @tail e₁ e' hsole hi ih =>
    rcases Relation.ReflTransGen.cases_tail hne with heq | ⟨e₂, hne₂, hi₂⟩
    · have hlast := hi.2
      rwa [heq] at hlast
    · -- both last slots hold the owner of the slot entered, which has one use only
      have hlive : n ∈ l.nodes := h.mem_of_input (h.mem_of_under he hef.under) hin
      have h₁ : e₁.owner ∈ l.nodes := h.mem_of_under he (Within.under hsole)
      have h₂ : e₂.owner ∈ l.nodes := h.mem_of_under hlive (Within.under hne₂)
      have heq : e₁ = e₂ :=
        eq_of_useCount_le_one hi.2 (huse.mpr ⟨h₁, hi.1⟩) (huse.mpr ⟨h₂, hi₂.1⟩)
      exact ih (heq ▸ hne₂)

/-- Of two slots that lead into a third, where one way passes only nodes with a single use, one leads
into the other, over nodes of its own way. -/
theorem Agrees.within_or {P Q : NodeId → Prop} (h : Agrees a l (.upTo lax) [])
    (he : e.owner ∈ l.nodes) (hf : f.owner ∈ l.nodes) (hP : ∀ n, P n → l.Single n)
    (hsole : a.Within P e e') (hfe : a.Within Q f e') : a.Within Q f e ∨ a.Within P e f := by
  have huse : ∀ {n e}, e ∈ l.usesOf n ↔ e.owner ∈ l.nodes ∧ a.slot? e = some n :=
    h.mem_usesOf fun _ _ hf => hf
  induction hsole with
  | refl => exact Or.inl hfe
  | @tail e₁ e' hsole hi ih =>
    rcases Relation.ReflTransGen.cases_tail hfe with heq | ⟨f₁, hff₁, hi'⟩
    · exact Or.inr (heq ▸ Relation.ReflTransGen.tail hsole hi)
    · -- both last slots hold the owner of the slot entered, which has one use only
      have h₁ : e₁.owner ∈ l.nodes := h.mem_of_under he (Within.under hsole)
      have h₂ : f₁.owner ∈ l.nodes := h.mem_of_under hf (Within.under hff₁)
      have heq : f₁ = e₁ :=
        eq_of_useCount_le_one (hP _ hi.2) (huse.mpr ⟨h₂, hi'.1⟩) (huse.mpr ⟨h₁, hi.1⟩)
      exact ih (heq ▸ hff₁)

/-- Of the slots of a node only one leads into a slot that is entered through nodes with a single
use. -/
theorem Agrees.index_eq_of_within {Q : NodeId → Prop} {i j : Nat} (h : Agrees a l (.upTo lax) [])
    (hac : a.Acyclic) (hn : n ∈ l.nodes) (hi : a.Within Q ⟨n, i⟩ e')
    (hj : a.Within l.Single ⟨n, j⟩ e') : i = j := by
  rcases h.within_or (e := ⟨n, j⟩) (f := ⟨n, i⟩) hn hn (fun _ hn => hn) hj hi with hw | hw
  · exact hac.index_eq_of_within hw
  · exact (hac.index_eq_of_within hw).symm

/-- Without environment layers, a slot within another one opened stands at a longer path. -/
theorem Agrees.prefix_of_within {p' : Path} (h : Agrees a l (.upTo lax) []) (hac : a.Acyclic)
    (hno : ∀ n k env value, ¬ a.IsLayer n k env value) (he : e.owner ∈ l.nodes)
    (hf : l.Opens a e p f) (hf' : l.Opens a e p' f') (hff : a.Within (fun _ => True) f f') :
    p <+: p' := by
  induction hf generalizing p' f' with
  | here e => exact List.nil_prefix
  | entry _ _ hl _ _ => exact absurd hl (hno _ _ _ _)
  | under _ _ hl _ _ _ => exact absurd hl (hno _ _ _ _)
  | @element e f n m parts i p hs hP ht hm hrest ih =>
    have hlive : n ∈ l.nodes := h.mem_of_input he (Arena.mem_inputs_of_slot? hs)
    have hin : n ∈ a.inputs e.owner := Arena.mem_inputs_of_slot? hs
    have hopen : a.Within l.Single ⟨n, i + 1⟩ f := hrest.within
    have hinto : a.Within (fun _ => True) ⟨n, i + 1⟩ f' := (hopen.mono fun _ _ => trivial).trans hff
    cases hf' with
    | here _ => exact absurd hinto.under (hac.not_under hin)
    | entry _ _ hl _ => exact absurd hl (hno _ _ _ _)
    | under _ _ hl _ _ => exact absurd hl (hno _ _ _ _)
    | @element _ _ n' m' parts' j p' hs' hP' ht' hm' hrest' =>
      obtain rfl := Option.some.inj (hs.symm.trans hs')
      have hij : i + 1 = j + 1 := h.index_eq_of_within hac hlive hinto hrest'.within
      obtain rfl : i = j := Nat.succ.inj hij
      exact List.cons_prefix_cons.mpr ⟨rfl, ih hlive hrest' hff⟩

/-- A reader that ends up in a slot which can be entered over single uses passes only those. -/
theorem Agrees.opens_of_reads (h : Agrees a l (.upTo lax) []) (hac : a.Acyclic)
    (he : e.owner ∈ l.nodes) (hsole : a.Within l.Single e e') (hr : a.Reads e p e') :
    l.Opens a e p e' := by
  have hmain : ∀ {f p f'}, a.Route (fun _ => True) f p f' → f' = e' →
      a.Within (fun _ => True) e f → a.Route l.Single f p f' := by
    intro f p f' hroute
    induction hroute with
    | here f => exact fun _ _ => .here f
    | @element f f' n m parts i p hs _ ht hm hrest ih =>
      rintro rfl hef
      have hP := h.single_of_within hac he hsole hef hs hrest.within
      exact .element hs hP ht hm (ih rfl (hef.tail ⟨hs, trivial⟩))
    | @entry f f' n env value k p hs _ hl hrest ih =>
      rintro rfl hef
      have hP := h.single_of_within hac he hsole hef hs hrest.within
      exact .entry hs hP hl (ih rfl (hef.tail ⟨hs, trivial⟩))
    | @under f f' n env value k k' p hs _ hl hk hrest ih =>
      rintro rfl hef
      have hP := h.single_of_within hac he hsole hef hs hrest.within
      exact .under hs hP hl hk (ih rfl (hef.tail ⟨hs, trivial⟩))
  exact hmain hr rfl Relation.ReflTransGen.refl

end Live

end Midend
