import Midend.Arena.Listing

/-!
# How nodes are written

A node is written as a percent sign and its number, and nothing else that is written in place of an
operand begins with a percent sign.
-/

namespace Midend

/-! ### Texts of constants -/

theorem percent_not_mem_toDigits (k : Nat) : '%' ∉ Nat.toDigits 10 k := fun h =>
  absurd (Nat.isDigit_of_mem_toDigits (by decide) (by decide) h) (by decide)

namespace Decimal

theorem Digits.percent_not_mem_ofMultiple (c : Nat) (g : Int) :
    '%' ∉ (Digits.ofMultiple c g).digits := by
  intro h
  have hdrop := (List.dropWhile_sublist _).mem (List.mem_reverse.mp h)
  exact percent_not_mem_toDigits c (List.mem_reverse.mp hdrop)

theorem percent_not_mem_shortest (tiesUp : Bool) (m : Nat) (q : Int) :
    '%' ∉ (shortest tiesUp m q).digits := by
  unfold shortest
  dsimp only
  generalize hfound : (List.range 17).findSome? _ = found
  cases found with
  | none => simp
  | some d =>
    obtain ⟨_, _, hd⟩ := List.exists_of_findSome?_eq_some hfound
    obtain ⟨c, _, rfl⟩ := Option.map_eq_some_iff.mp hd
    exact Digits.percent_not_mem_ofMultiple c _

variable {d : Digits}

theorem Digits.percent_not_mem_positional (h : '%' ∉ d.digits) : '%' ∉ d.positional := by
  have htake : ∀ k, '%' ∉ d.digits.take k := fun k hk => h (List.mem_of_mem_take hk)
  have hdrop : ∀ k, '%' ∉ d.digits.drop k := fun k hk => h (List.mem_of_mem_drop hk)
  unfold positional
  dsimp only
  split
  · simp [h]
  · split <;> simp [htake, hdrop]

theorem Digits.percent_not_mem_scientific (plusSign : Bool) (h : '%' ∉ d.digits) :
    '%' ∉ d.scientific plusSign := by
  have hpower := percent_not_mem_toDigits d.power.natAbs
  unfold scientific
  dsimp only
  simp only [List.mem_append, List.mem_cons, not_or]
  refine ⟨⟨?mantissa, by decide, ?sign⟩, hpower⟩
  case mantissa => split <;> simp_all
  case sign =>
    split
    · simp
    · split <;> simp

theorem FloatStyle.percent_not_mem_text (style : FloatStyle) (bits : UInt64) :
    '%' ∉ (style.text bits).toList := by
  unfold FloatStyle.text
  generalize Binary64.ofBits bits = b
  cases b with
  | nan => simp
  | infinite negative => cases negative <;> simp
  | finite negative m q =>
    have hdigits := percent_not_mem_shortest style.tiesUp m q
    have hbody : '%' ∉ (if m = 0 then ['0', '.', '0'] else
        if style.positionalFrom ≤ (shortest style.tiesUp m q).power ∧
            (shortest style.tiesUp m q).power ≤ style.positionalTo
          then (shortest style.tiesUp m q).positional
        else (shortest style.tiesUp m q).scientific style.plusSign) := by
      split
      · simp
      · split
        · exact Digits.percent_not_mem_positional hdigits
        · exact Digits.percent_not_mem_scientific style.plusSign hdigits
    dsimp only
    rw [String.toList_ofList]
    split
    · exact List.not_mem_cons_of_ne_of_not_mem (by decide) hbody
    · exact hbody

end Decimal

theorem Value.head?_text_ne (v : Value) : v.text.toList.head? ≠ some '%' := by
  cases v with
  | int i =>
    cases i with
    | ofNat k =>
      have htext : (int (.ofNat k)).text = k.repr := rfl
      rw [htext, Nat.toList_repr]
      exact fun h => percent_not_mem_toDigits k (List.mem_of_mem_head? h)
    | negSucc k =>
      have htext : (int (.negSucc k)).text = "-" ++ (k + 1).repr := rfl
      simp [htext]
  | float bits => exact fun h => floatStyle.percent_not_mem_text bits (List.mem_of_mem_head? h)
  | bool b => cases b <;> decide
  | str s => simp [text, Text.quoted]
  | key k => simp [text]
  | graph g => simp [text]
  | prim p => cases p <;> decide
  | nil => decide
  | dead => decide

/-! ### Texts of nodes -/

namespace NodeId

variable {n m : NodeId}

theorem toList_text (n : NodeId) : n.text.toList = '%' :: Nat.toDigits 10 n.index := by
  have htext : n.text = "%" ++ n.index.repr := rfl
  rw [htext, String.toList_append, Nat.toList_repr]
  rfl

theorem eq_of_toDigits_eq (h : Nat.toDigits 10 n.index = Nat.toDigits 10 m.index) : n = m := by
  have hindex := congrArg (fun cs => Nat.ofDigitChars 10 cs 0) h
  simp only [Nat.ofDigitChars_ten_toDigits] at hindex
  exact congrArg NodeId.mk hindex

theorem text_inj : n.text = m.text ↔ n = m := by
  refine ⟨fun h => eq_of_toDigits_eq ?_, congrArg text⟩
  rw [← String.toList_inj, toList_text, toList_text] at h
  exact (List.cons.inj h).2

end NodeId

namespace Arena

variable {a : Arena} {n m : NodeId}

/-- What is written as a node in place of an operand is that node, and no constant. -/
theorem operand_eq_text (h : a.operand n = m.text) : n = m ∧ a.value? n = none := by
  have hpercent : m.text.toList.head? = some '%' := by rw [NodeId.toList_text, List.head?_cons]
  unfold operand at h
  split at h
  · next g _ =>
    rw [← h] at hpercent
    simp at hpercent
  · next v _ _ => exact absurd (h ▸ hpercent) v.head?_text_ne
  · next hv => exact ⟨NodeId.text_inj.mp h, hv⟩

/-! ### Lines -/

/-- Whether a line tells what a node is: it begins with the node and an equals sign. -/
def Defines (line : String) (n : NodeId) : Prop :=
  ("  " ++ n.text ++ " = ").toList <+: line.toList

instance (line : String) (n : NodeId) : Decidable (Defines line n) :=
  inferInstanceAs (Decidable (_ <+: _))

theorem defines_iff {line : String} : Defines line n ↔ ∃ rest, line.toList =
    ' ' :: ' ' :: '%' :: (Nat.toDigits 10 n.index ++ ' ' :: '=' :: ' ' :: rest) := by
  simp [Defines, List.IsPrefix, NodeId.toList_text, eq_comm]

theorem toList_applyLine (a : Arena) (typed : Bool) (n : NodeId) : ∃ rest,
    (a.applyLine typed n).toList =
      ' ' :: ' ' :: '%' :: (Nat.toDigits 10 n.index ++ ' ' :: '=' :: ' ' :: rest) := by
  simp [applyLine, NodeId.toList_text]

theorem toList_returnLine (a : Arena) (r : NodeId) : ∃ rest,
    (a.returnLine r).toList = ' ' :: ' ' :: 'r' :: rest := by
  unfold returnLine
  split <;> simp

/-- The line of an apply defines this apply and no other node. -/
theorem defines_applyLine {typed : Bool} : Defines (a.applyLine typed m) n ↔ m = n := by
  -- the number of a node ends at the first blank
  have hnumber : ∀ k rest, (Nat.toDigits 10 k ++ ' ' :: rest).takeWhile Char.isDigit =
      Nat.toDigits 10 k := by
    intro k rest
    rw [List.takeWhile_append_of_pos fun c hc =>
      Nat.isDigit_of_mem_toDigits (by decide) (by decide) hc]
    simp
  constructor
  · intro h
    obtain ⟨rest, hrest⟩ := defines_iff.mp h
    obtain ⟨rest', hrest'⟩ := a.toList_applyLine typed m
    simp only [hrest', List.cons.injEq, true_and] at hrest
    have hdigits := congrArg (List.takeWhile Char.isDigit) hrest
    rw [hnumber, hnumber] at hdigits
    exact NodeId.eq_of_toDigits_eq hdigits
  · rintro rfl
    exact defines_iff.mpr (a.toList_applyLine typed m)

theorem not_defines_headLine {g : GraphId} : ¬ Defines (a.headLine g) n := by
  simp [defines_iff, headLine]

theorem not_defines_returnLine {r : NodeId} : ¬ Defines (a.returnLine r) n := by
  obtain ⟨rest, hrest⟩ := a.toList_returnLine r
  simp [defines_iff, hrest]

theorem not_defines_closingLine : ¬ Defines closingLine n := by
  simp [defines_iff, closingLine]

/-- Whether a line tells what a graph returns. -/
def IsReturnLine (line : String) : Prop := "  return ".toList <+: line.toList

instance (line : String) : Decidable (IsReturnLine line) := inferInstanceAs (Decidable (_ <+: _))

theorem isReturnLine_returnLine {r : NodeId} : IsReturnLine (a.returnLine r) := by
  unfold IsReturnLine returnLine
  split <;> simp

theorem not_isReturnLine_headLine {g : GraphId} : ¬ IsReturnLine (a.headLine g) := by
  simp [IsReturnLine, headLine]

theorem not_isReturnLine_applyLine {typed : Bool} : ¬ IsReturnLine (a.applyLine typed n) := by
  obtain ⟨rest, hrest⟩ := a.toList_applyLine typed n
  simp [IsReturnLine, hrest]

theorem not_isReturnLine_closingLine : ¬ IsReturnLine closingLine := by
  simp [IsReturnLine, closingLine]

end Arena

end Midend
