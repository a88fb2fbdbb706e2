import ChoiceModel.Text.Blank
import ChoiceModel.Expression.Alphabet
import ChoiceModel.Expression.Error

/-! Subscripts: `NAME[SUB]` is another way to write `ARRAY(NAME,SUB)`. Expansion takes the last
subscript of a text first, and every step leaves one opening bracket less. -/

namespace ChoiceModel.Expression

open Text

/-- The name that ends where `left`, a text in reverse, begins; and what stands before the name. -/
def nameBefore (left : List Char) : List Char × List Char :=
  let run := (left.takeWhile isNamePart).reverse
  let skipped := run.takeWhile fun c => !isNameStart c
  let name := run.dropWhile fun c => !isNameStart c
  ((left.dropWhile isNamePart).reverse ++ skipped, name)

structure Opening where
  before : List Char
  name : List Char
  after : List Char

/-- The last subscript of a text whose part in front, in reverse, is `left`. -/
def lastOpening? (left : List Char) : List Char → Option Opening
  | [] => none
  | c :: right =>
    match lastOpening? (c :: left) right with
    | some o => some o
    | none =>
      if c == '[' then
        match nameBefore left with
        | (_, []) => none
        | (before, name) => some ⟨before, name, right⟩
      else none

/-- Splits a text at the `]` that closes the bracket opened in front of it, with `depth` brackets
opened since. -/
def closing? (depth : Nat) : List Char → Option (List Char × List Char)
  | [] => none
  | c :: rest =>
    if c == ']' && depth == 0 then some ([], rest)
    else
      let depth := if c == '[' then depth + 1 else if c == ']' then depth - 1 else depth
      (closing? depth rest).map fun (sub, after) => (c :: sub, after)

theorem nameBefore_append (left : List Char) :
    (nameBefore left).1 ++ (nameBefore left).2 = left.reverse := by
  simp only [nameBefore, List.append_assoc, List.takeWhile_append_dropWhile]
  rw [← List.reverse_append, List.takeWhile_append_dropWhile]

theorem lastOpening?_eq {left right : List Char} {o : Opening}
    (h : lastOpening? left right = some o) :
    o.before ++ o.name ++ '[' :: o.after = left.reverse ++ right := by
  induction right generalizing left with
  | nil => simp [lastOpening?] at h
  | cons c right ih =>
    simp only [lastOpening?] at h
    split at h
    · rename_i o' ho
      cases h
      simpa using ih ho
    · split at h
      · rename_i hc
        have hc : c = '[' := by simpa using hc
        have hname := nameBefore_append left
        split at h
        · cases h
        · rename_i before name _ heq
          cases h
          simp only [heq] at hname
          simp [hname, hc]
      · cases h

theorem closing?_eq {depth : Nat} {cs sub after : List Char}
    (h : closing? depth cs = some (sub, after)) : sub ++ ']' :: after = cs := by
  induction cs generalizing depth sub with
  | nil => simp [closing?] at h
  | cons c rest ih =>
    simp only [closing?] at h
    split at h
    · rename_i hc
      simp only [Bool.and_eq_true, beq_iff_eq] at hc
      cases h
      simp [hc.1]
    · simp only [Option.map_eq_some_iff, Prod.mk.injEq, Prod.exists] at h
      obtain ⟨s, a, hs, rfl, rfl⟩ := h
      simp [ih hs]

def lookupCall (before name sub after : List Char) : List Char :=
  before ++ "ARRAY(".toList ++ name ++ ',' :: sub ++ ')' :: after

theorem count_lookupCall (before name sub after : List Char) :
    (lookupCall before name sub after).count '['
      < (before ++ name ++ '[' :: (sub ++ ']' :: after)).count '[' := by
  have hcall : "ARRAY(".toList.count '[' = 0 := by decide
  simp only [lookupCall, List.count_append, List.count_cons, hcall]
  have h1 : ((',' : Char) == '[') = false := by decide
  have h2 : ((')' : Char) == '[') = false := by decide
  have h3 : ((']' : Char) == '[') = false := by decide
  simp only [h1, h2, h3, beq_self_eq_true, if_true]
  simp
  omega

def firstPosition? (p : Char → Bool) : List Char → Option Nat
  | [] => none
  | c :: rest => if p c then some 0 else (firstPosition? p rest).map (· + c.utf8Size)

/-- The text with every subscript written as a call. -/
def expandSubscripts (cs : List Char) : Except SyntaxError (List Char) :=
  match _ : lastOpening? [] cs with
  | none =>
    match firstPosition? isBracket cs with
    | some position => .error (.malformed .strayBracket position)
    | none => .ok cs
  | some o =>
    match _ : closing? 0 o.after with
    | none => .error (.malformed .unmatchedBracket (byteLength (o.before ++ o.name)))
    | some (sub, after) => expandSubscripts (lookupCall o.before o.name sub after)
termination_by cs.count '['
decreasing_by
  rename_i ho hc
  have heq := lastOpening?_eq ho
  rw [← closing?_eq hc] at heq
  have hlt := count_lookupCall o.before o.name sub after
  rw [heq] at hlt
  simpa using hlt

end ChoiceModel.Expression
