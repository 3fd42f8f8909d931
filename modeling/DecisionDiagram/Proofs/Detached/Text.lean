import Std.Data.String.ToNat
import DecisionDiagram.Proofs.Detached.Equivalence

/-!
# Texts of diagrams

A text can be read back although nothing separates its parts but brackets and commas: the digits of
a variable end at a comma, and the text of a branch shows where it ends. So what follows a tree in a
list of letters is determined along with the tree. Different trees have different texts, none of
which begins another, and the texts of detached diagrams tell whether these are structurally equal.
-/

namespace DecisionDiagram

/-! ## Digits -/

theorem toDigits_inj {n m : Nat} (same : Nat.toDigits 10 n = Nat.toDigits 10 m) : n = m := by
  apply Nat.repr_inj.mp
  rw [Nat.repr_eq_ofList_toDigits, same, Nat.repr_eq_ofList_toDigits]

theorem takeWhile_digits (n : Nat) (rest : List Char) :
    (Nat.toDigits 10 n ++ ',' :: rest).takeWhile Char.isDigit = Nat.toDigits 10 n := by
  have digits : ∀ c ∈ Nat.toDigits 10 n, c.isDigit = true :=
    fun c => Nat.isDigit_of_mem_toDigits (by decide) (by decide)
  rw [List.takeWhile_append_of_pos digits, List.takeWhile_cons_of_neg (by decide), List.append_nil]

/-- A number that a comma follows is determined, and so are the letters after the comma. -/
theorem digits_append_inj {n m : Nat} {u v : List Char}
    (same : Nat.toDigits 10 n ++ ',' :: u = Nat.toDigits 10 m ++ ',' :: v) : n = m ∧ u = v := by
  have digits := congrArg (List.takeWhile Char.isDigit) same
  rw [takeWhile_digits, takeWhile_digits] at digits
  rw [digits] at same
  exact ⟨toDigits_inj digits, (List.cons.inj (List.append_cancel_left same)).2⟩

/-! ## Trees -/

namespace Tree

theorem letters_leaf (value : Bool) (rest : List Char) :
    (leaf value).text.toList ++ rest = '(' :: (if value then '1' else '0') :: ')' :: rest := by
  cases value <;> rfl

theorem letters_node (var : Nat) (high low : Tree) (rest : List Char) :
    (node var high low).text.toList ++ rest =
      '(' :: 'x' :: (Nat.toDigits 10 var ++ ',' :: ' ' :: (high.text.toList ++ ',' :: ' ' ::
        (low.text.toList ++ ')' :: rest))) := by
  rw [text]
  simp only [String.toList_append, List.append_assoc, Nat.toString_eq_ofList_toDigits,
    String.toList_ofList]
  rfl

theorem letters_leaf_ne_node {value : Bool} {var : Nat} {high low : Tree} {u v : List Char} :
    (leaf value).text.toList ++ u ≠ (node var high low).text.toList ++ v := by
  rw [letters_leaf, letters_node]
  intro same
  have mark : (if value then '1' else '0') = 'x' := (List.cons.inj (List.cons.inj same).2).1
  cases value <;> exact absurd mark (by decide)

/-- Where letters begin with the text of a tree, they determine the tree and what follows it. -/
theorem text_append_inj {s t : Tree} {u v : List Char}
    (same : s.text.toList ++ u = t.text.toList ++ v) : s = t ∧ u = v := by
  -- What follows is arbitrary, since the text of the high branch stands before that of the low one.
  induction s generalizing t u v with
  | leaf x =>
      cases t with
      | leaf y =>
          rw [letters_leaf, letters_leaf] at same
          obtain ⟨mark, rest⟩ := List.cons.inj (List.cons.inj same).2
          have value : x = y := by
            revert mark
            cases x <;> cases y <;> decide
          exact ⟨congrArg leaf value, (List.cons.inj rest).2⟩
      | node w highT lowT => exact absurd same letters_leaf_ne_node
  | node v highS lowS ihHigh ihLow =>
      cases t with
      | leaf y => exact absurd same.symm letters_leaf_ne_node
      | node w highT lowT =>
          rw [letters_node, letters_node] at same
          obtain ⟨rfl, afterVar⟩ := digits_append_inj (List.cons.inj (List.cons.inj same).2).2
          obtain ⟨rfl, afterHigh⟩ := ihHigh (List.cons.inj afterVar).2
          obtain ⟨rfl, afterLow⟩ := ihLow (List.cons.inj (List.cons.inj afterHigh).2).2
          exact ⟨rfl, (List.cons.inj afterLow).2⟩

theorem text_inj {s t : Tree} : s.text = t.text ↔ s = t := by
  constructor
  · intro same
    exact (text_append_inj (congrArg (·.toList ++ []) same)).1
  · exact congrArg text

/-- Nothing but the empty text extends the text of a tree to that of a tree. -/
theorem eq_empty_of_text_append {s t : Tree} {rest : String} (longer : t.text = s.text ++ rest) :
    rest = "" := by
  have letters : t.text.toList ++ [] = s.text.toList ++ rest.toList := by
    rw [longer, String.toList_append, List.append_nil]
  exact String.toList_inj.mp (text_append_inj letters).2.symm

end Tree

/-! ## Detached diagrams -/

namespace Detached

/--
Instances have equal texts if and only if they are structurally equal, and no text of a diagram goes
on to the text of another.
-/
theorem Coherent.text_identifies {diagrams : List Detached} (coherent : Coherent diagrams) :
    (∀ x y, Among diagrams x → Among diagrams y → (x.text = y.text ↔ x.equals y = true)) ∧
      ∀ (x y : Detached) (rest : String), y.text = x.text ++ rest → rest = "" := by
  constructor
  · intro x y amongX amongY
    rw [equals_iff coherent amongX amongY]
    exact Tree.text_inj
  · intro x y rest longer
    exact Tree.eq_empty_of_text_append longer

theorem text_identifies_doubles :
    Coherent doubles.diagrams ∧ (doubled 4 2).text = (doubled 5 3).text ∧
      (doubled 4 2).text ≠ (Bench.literal 2 2).text ∧
      ∀ rest : String, (doubled 4 2).text = (doubled 5 3).text ++ rest → rest = "" := by
  have coherent := reached_doubles.made.coherent
  have outer : Among doubles.diagrams (doubled 5 3) := .self (.head _)
  have other : Among doubles.diagrams (doubled 4 2) := .self (.tail _ (.head _))
  have literal : Among doubles.diagrams (Bench.literal 2 2) :=
    .self (.tail _ (.tail _ (.tail _ (.head _))))
  obtain ⟨text_iff, ends⟩ := coherent.text_identifies
  exact ⟨coherent, (text_iff _ _ other outer).mpr (by decide +kernel),
    mt (text_iff _ _ other literal).mp (by decide +kernel), ends _ _⟩

end Detached

end DecisionDiagram
