import ChoiceModel.Proofs.Expression.Coverage

/-! The scan of a text by its bytes, with a position that goes on byte by byte and texts that are sliced
between positions. A slice exists between the boundaries of characters alone, and the scan never asks
for another one. -/

namespace ChoiceModel.Expression

open Text

/-- The bytes of a text in UTF-8. -/
def octets (cs : List Char) : List UInt8 := cs.flatMap String.utf8EncodeChar

/-- The two parts of a text around a byte, which must not lie within a character. -/
def splitAt? : Nat → List Char → Option (List Char × List Char)
  | 0, cs => some ([], cs)
  | _ + 1, [] => none
  | n + 1, c :: cs =>
    if c.utf8Size ≤ n + 1 then
      (splitAt? (n + 1 - c.utf8Size) cs).map fun parts => (c :: parts.1, parts.2)
    else none

def slice? (cs : List Char) (start stop : Nat) : Option (List Char) := do
  let (front, _) ← splitAt? stop cs
  let (_, middle) ← splitAt? start front
  return middle

/-- The next position whose byte does not pass. -/
def advance (passes : Nat → UInt8 → Bool) (bs : List UInt8) (position : Nat) : Nat :=
  if h : position < bs.length then
    if passes position bs[position] then advance passes bs (position + 1) else position
  else position
termination_by bs.length - position

namespace Octets

/-- Where a scan stands, and the last byte of the lexeme in front of it. -/
structure Reader where
  position : Nat := 0
  previous : Option UInt8 := none

inductive Outcome where
  | failed (e : SyntaxError)
  | lexeme (l : Lexeme) (r : Reader)
  | stop (position : Nat)

variable (bs : List UInt8)

def pastBlanks (position : Nat) : Nat := advance (fun _ b => isBlank (.ofUInt8 b)) bs position

def nameEnd (position : Nat) : Nat := advance (fun _ b => !isDelimiter (.ofUInt8 b)) bs position

def startsNegative (position : Nat) (previous : Option UInt8) : Bool :=
  (bs[position + 1]?.any fun b => opensNumber (.ofUInt8 b)) &&
    !previous.any fun b => closesOperand (.ofUInt8 b)

/-- A sign belongs to a number that starts at `start` if it stands right behind an exponent mark. -/
def exponentSign (start position : Nat) (b : UInt8) : Bool :=
  (Char.ofUInt8 b == '-' || Char.ofUInt8 b == '+') &&
    (bs[position - 1]?.any fun p => Char.ofUInt8 p == 'e' || Char.ofUInt8 p == 'E') &&
    decide (start < position - 1)

def numberEnd (start : Nat) : Nat :=
  let first := if (bs[start]?.any fun b => Char.ofUInt8 b == '-') then start + 1 else start
  advance (fun position b => !(isDelimiter (.ofUInt8 b) && !exponentSign bs start position b)) bs first

/-- The reader behind a lexeme that ends at `stop`. -/
def readerAt (stop : Nat) : Reader where
  position := stop
  previous := match stop with
    | 0 => none
    | last + 1 => bs[last]?

def readNumber (cs : List Char) (start : Nat) : Option Outcome :=
  let stop := numberEnd bs start
  (slice? cs start stop).map fun literal =>
    match Decimal.read literal with
    | .ok x => .lexeme ⟨.number x, start⟩ (readerAt bs stop)
    | .error _ => .failed (.malformed (.invalidNumber (String.ofList literal)) start)

def readName (cs : List Char) (start : Nat) : Option Outcome :=
  let stop := nameEnd bs start
  (slice? cs start stop).map fun name =>
    .lexeme ⟨.name (String.ofList name), start⟩ (readerAt bs stop)

/-- A symbol shows in its byte and the one behind it. -/
def readSymbol (b : UInt8) (start : Nat) : Outcome :=
  let k := cutSymbol (.ofUInt8 b) (bs[start + 1]?.map Char.ofUInt8).toList
  .lexeme ⟨k.token, start⟩ (readerAt bs (start + k.text.length))

/-- The next lexeme, unless a slice is cut off within a character. -/
def next (cs : List Char) (r : Reader) : Option Outcome :=
  let bs := octets cs
  let start := pastBlanks bs r.position
  match bs[start]? with
  | none => some (.stop start)
  | some b =>
    let c := Char.ofUInt8 b
    if c == '-' && startsNegative bs start r.previous then readNumber bs cs start
    else if opensNumber c then readNumber bs cs start
    else if isNameStart c then readName bs cs start
    else if isDelimiter c then some (readSymbol bs b start)
    else
      (splitAt? start cs).map fun parts =>
        .failed (.malformed (.unexpectedCharacter (parts.2.headD '?')) start)

/-- The scan from `r` on, with `n` calls for a lexeme at most. -/
def scanWithin (cs : List Char) : Nat → Reader → Option (Except SyntaxError Scan)
  | 0, _ => none
  | n + 1, r =>
    match next cs r with
    | none => none
    | some (.failed e) => some (.error e)
    | some (.stop position) => some (.ok ⟨[], position⟩)
    | some (.lexeme l r) =>
      (scanWithin cs n r).map fun result =>
        result.map fun lexed => { lexed with lexemes := l :: lexed.lexemes }

end Octets

/-! ### Texts and their bytes -/

section Bytes

variable {cs front rest : List Char} {c : Char} {n i : Nat} {b : UInt8}

theorem splitAt?_eq_some_iff : splitAt? n cs = some (front, rest) ↔
    cs = front ++ rest ∧ byteLength front = n := by
  constructor
  · intro h
    fun_induction splitAt? n cs generalizing front rest with
    | case1 cs =>
      cases h
      exact ⟨rfl, rfl⟩
    | case2 n => cases h
    | case3 n c cs hle ih =>
      obtain ⟨⟨front', rest'⟩, hparts, heq⟩ := Option.map_eq_some_iff.mp h
      cases heq
      obtain ⟨rfl, hbytes⟩ := ih hparts
      refine ⟨rfl, ?_⟩
      rw [byteLength_cons, hbytes]
      omega
    | case4 n c cs hgt => cases h
  · rintro ⟨rfl, rfl⟩
    induction front with
    | nil => exact splitAt?.eq_1 rest
    | cons c front ih =>
      have hpos := c.utf8Size_pos
      obtain ⟨m, hm⟩ : ∃ m, byteLength (c :: front) = m + 1 :=
        Nat.exists_eq_add_one.mpr (Nat.add_pos_left hpos _)
      rw [hm, List.cons_append, splitAt?, ← hm, byteLength_cons, if_pos (Nat.le_add_right _ _),
        Nat.add_sub_cancel_left, ih]
      rfl

/-- Slices run from the front of a character to the end of one. -/
theorem slice?_eq_some_iff {start stop : Nat} {middle : List Char} :
    slice? cs start stop = some middle ↔ ∃ front rest,
      cs = front ++ middle ++ rest ∧ byteLength front = start ∧
        byteLength front + byteLength middle = stop := by
  constructor
  · intro h
    obtain ⟨⟨before, rest⟩, hstop, h⟩ := Option.bind_eq_some_iff.mp h
    obtain ⟨⟨front, middle'⟩, hstart, h⟩ := Option.bind_eq_some_iff.mp h
    cases h
    obtain ⟨rfl, hbefore⟩ := splitAt?_eq_some_iff.mp hstop
    obtain ⟨rfl, hfront⟩ := splitAt?_eq_some_iff.mp hstart
    exact ⟨front, rest, rfl, hfront, by rw [← byteLength_append, hbefore]⟩
  · rintro ⟨front, rest, rfl, rfl, rfl⟩
    rw [slice?, splitAt?_eq_some_iff.mpr ⟨rfl, byteLength_append _ _⟩]
    simp only [Option.bind_eq_bind, Option.bind_some]
    rw [splitAt?_eq_some_iff.mpr ⟨rfl, rfl⟩]
    rfl

/-- No slice starts within a character of two bytes. -/
example : slice? ['é', '+', 'x'] 1 3 = none ∧ slice? ['é', '+', 'x'] 2 4 = some ['+', 'x'] := by decide

theorem utf8EncodeChar_of_lt (h : c.toNat < 128) :
    ∃ b, String.utf8EncodeChar c = [b] ∧ Char.ofUInt8 b = c := by
  refine ⟨c.val.toUInt8, String.utf8EncodeChar_eq_singleton ?_, ?_⟩
  · rw [Char.utf8Size_eq_one_iff, UInt32.le_iff_toNat_le]
    exact Nat.le_of_lt_succ h
  · refine Char.ext (UInt32.toNat_inj.mp ?_)
    change c.val.toUInt8.toNat = c.val.toNat
    rw [UInt32.toNat_toUInt8]
    exact Nat.mod_eq_of_lt (Nat.lt_trans h (by decide))

theorem ofUInt8_of_mem_utf8EncodeChar (h : c.toNat < 128) (hb : b ∈ String.utf8EncodeChar c) :
    Char.ofUInt8 b = c := by
  obtain ⟨b', hbytes, hchar⟩ := utf8EncodeChar_of_lt h
  rw [hbytes, List.mem_singleton] at hb
  rw [hb, hchar]

theorem utf8Size_of_lt (h : c.toNat < 128) : c.utf8Size = 1 := by
  obtain ⟨b, hbytes, -⟩ := utf8EncodeChar_of_lt h
  rw [← String.length_utf8EncodeChar, hbytes]
  rfl

theorem le_toNat_of_mem_utf8EncodeChar (h : 128 ≤ c.toNat) (hb : b ∈ String.utf8EncodeChar c) :
    128 ≤ b.toNat := by
  have hc : ¬ c.val.toNat ≤ 127 := by
    rw [Char.toNat_val]
    omega
  have hpart : ∀ v m k : Nat, 0 < m → 128 ≤ k → k + m ≤ 256 →
      128 ≤ (UInt8.ofNat (v % m + k)).toNat := by
    intro v m k hm hk hbound
    have hlt := Nat.mod_lt v hm
    rw [UInt8.toNat_ofNat', Nat.mod_eq_of_lt (by omega)]
    omega
  unfold String.utf8EncodeChar at hb
  simp only [if_neg hc] at hb
  split at hb
  · simp only [List.mem_cons, List.not_mem_nil, or_false] at hb
    rcases hb with rfl | rfl
    all_goals exact hpart _ _ _ (by decide) (by decide) (by decide)
  · split at hb
    · simp only [List.mem_cons, List.not_mem_nil, or_false] at hb
      rcases hb with rfl | rfl | rfl
      all_goals exact hpart _ _ _ (by decide) (by decide) (by decide)
    · simp only [List.mem_cons, List.not_mem_nil, or_false] at hb
      rcases hb with rfl | rfl | rfl | rfl
      all_goals exact hpart _ _ _ (by decide) (by decide) (by decide)

theorem octets_append (front rest : List Char) : octets (front ++ rest) = octets front ++ octets rest :=
  List.flatMap_append

theorem octets_cons (c : Char) (cs : List Char) :
    octets (c :: cs) = String.utf8EncodeChar c ++ octets cs := rfl

@[simp] theorem length_octets (cs : List Char) : (octets cs).length = byteLength cs := by
  induction cs with
  | nil => rfl
  | cons c cs ih => rw [octets_cons, List.length_append, String.length_utf8EncodeChar, ih, byteLength_cons]

theorem getElem?_octets_append (front rest : List Char) (i : Nat) :
    (octets (front ++ rest))[byteLength front + i]? = (octets rest)[i]? := by
  rw [octets_append, List.getElem?_append_right (by simp), length_octets, Nat.add_sub_cancel_left]

theorem byteLength_concat (cs : List Char) (c : Char) :
    byteLength (cs ++ [c]) = byteLength cs + c.utf8Size := by
  rw [byteLength_append, byteLength_cons, byteLength_nil, Nat.add_zero]

/-- The bytes of a character stand where it stands. -/
theorem exists_mem_utf8EncodeChar (front : List Char) (c : Char) (rest : List Char)
    (hi : i < c.utf8Size) :
    ∃ b ∈ String.utf8EncodeChar c, (octets (front ++ c :: rest))[byteLength front + i]? = some b := by
  have hlt : i < (String.utf8EncodeChar c).length := by
    rw [String.length_utf8EncodeChar]
    exact hi
  refine ⟨_, List.getElem_mem hlt, ?_⟩
  rw [getElem?_octets_append, octets_cons, List.getElem?_append_left hlt,
    List.getElem?_eq_getElem hlt]

theorem mem_utf8EncodeChar_of_octet (hi : i < c.utf8Size)
    (hb : (octets (front ++ c :: rest))[byteLength front + i]? = some b) :
    b ∈ String.utf8EncodeChar c := by
  obtain ⟨b', hmem, hb'⟩ := exists_mem_utf8EncodeChar front c rest hi
  rw [hb] at hb'
  cases hb'
  exact hmem

end Bytes

/-! ### Classes of bytes -/

theorem toNat_lt_of_isDelimiter {c : Char} (h : isDelimiter c = true) : c.toNat < 128 := by
  have hall : delimiters.all (fun d => decide (d.toNat < 128)) = true := by decide
  exact of_decide_eq_true (List.all_eq_true.mp hall c (List.contains_iff_mem.mp h))

/-- Classes of characters that the bytes of a character are in along with it. -/
def Bytewise (p : Char → Bool) : Prop :=
  ∀ c, ∀ b ∈ String.utf8EncodeChar c, p (.ofUInt8 b) = p c

namespace Bytewise

variable {p q : Char → Bool}

/-- Only single bytes are in an ASCII class. -/
theorem of_ascii (h : ∀ c, p c = true → c.toNat < 128) : Bytewise p := by
  intro c b hb
  by_cases hc : c.toNat < 128
  · rw [ofUInt8_of_mem_utf8EncodeChar hc hb]
  · have hle := le_toNat_of_mem_utf8EncodeChar (Nat.le_of_not_lt hc) hb
    have hnot : p (.ofUInt8 b) = false := eq_false_of_ne_true fun hp =>
      Nat.not_lt.mpr hle (h (.ofUInt8 b) hp)
    rw [hnot, eq_false_of_ne_true fun hp => hc (h c hp)]

theorem not (h : Bytewise p) : Bytewise fun c => !p c := fun c b hb => congrArg Bool.not (h c b hb)

theorem or (h : Bytewise p) (h' : Bytewise q) : Bytewise fun c => p c || q c :=
  fun c b hb => congrArg₂ Bool.or (h c b hb) (h' c b hb)

theorem beq {d : Char} (hd : d.toNat < 128) : Bytewise (· == d) :=
  of_ascii fun c hc => by
    rw [beq_iff_eq.mp hc]
    exact hd

theorem isDelimiter : Bytewise isDelimiter := of_ascii fun _ => toNat_lt_of_isDelimiter

theorem isBlank : Bytewise isBlank :=
  of_ascii fun _ hc => toNat_lt_of_isDelimiter (isDelimiter_of_isBlank hc)

theorem opensNumber : Bytewise opensNumber := by
  refine or (of_ascii fun c hc => ?_) (beq (by decide))
  have hle : c.toNat ≤ 57 := of_decide_eq_true (Bool.and_eq_true_iff.mp hc).2
  omega

theorem isNameStart : Bytewise isNameStart := by
  refine or (or (of_ascii fun c hc => ?_) (beq (by decide))) (beq (by decide))
  have hbounds := toNat_of_isAlpha hc
  omega

theorem closesOperand : Bytewise closesOperand := or (beq (by decide)) isDelimiter.not

end Bytewise

/-! ### Loops -/

section Loops

variable {passes : Nat → UInt8 → Bool} {bs : List UInt8} {position : Nat}

theorem advance_of_stop (h : ∀ b, bs[position]? = some b → passes position b = false) :
    advance passes bs position = position := by
  rw [advance]
  split
  · rename_i hlt
    rw [if_neg]
    rw [h _ (List.getElem?_eq_getElem hlt)]
    exact Bool.false_ne_true
  · rfl

theorem advance_add {n : Nat}
    (h : ∀ i < n, ∃ b, bs[position + i]? = some b ∧ passes (position + i) b = true) :
    advance passes bs position = advance passes bs (position + n) := by
  induction n with
  | zero => rfl
  | succ n ih =>
    obtain ⟨b, hb, hpasses⟩ := h n (Nat.lt_succ_self n)
    obtain ⟨hlt, rfl⟩ := List.getElem?_eq_some_iff.mp hb
    rw [ih fun i hi => h i (Nat.lt_succ_of_lt hi), advance, dif_pos hlt, if_pos hpasses]
    rfl

/-- A loop over the bytes of a class passes over the characters of the class. -/
theorem advance_takeWhile {p : Char → Bool} (hp : Bytewise p) (front cs : List Char) :
    advance (fun _ b => p (.ofUInt8 b)) (octets (front ++ cs)) (byteLength front) =
      byteLength front + byteLength (cs.takeWhile p) := by
  induction cs generalizing front with
  | nil =>
    refine advance_of_stop fun b hb => ?_
    rw [List.append_nil, List.getElem?_eq_none (Nat.le_of_eq (length_octets front))] at hb
    cases hb
  | cons c cs ih =>
    rw [List.takeWhile_cons]
    cases hc : p c with
    | true =>
      rw [advance_add (n := c.utf8Size)]
      · have hrest := ih (front ++ [c])
        rw [byteLength_concat, List.append_assoc, List.singleton_append] at hrest
        rw [hrest, if_pos rfl, byteLength_cons, Nat.add_assoc]
      · intro i hi
        obtain ⟨b, hmem, hb⟩ := exists_mem_utf8EncodeChar front c cs hi
        exact ⟨b, hb, (hp c b hmem).trans hc⟩
    | false =>
      rw [advance_of_stop]
      · rfl
      · intro b hb
        exact (hp c b (mem_utf8EncodeChar_of_octet c.utf8Size_pos hb)).trans hc

end Loops

namespace Octets

/-- A sign behind an exponent mark, seen from its byte. The mark is not where the number starts. -/
theorem exponentSign_eq {front : List Char} {last c : Char} {cs : List Char} {start : Nat} {b : UInt8}
    (hb : b ∈ String.utf8EncodeChar c)
    (hmark : (last == 'e' || last == 'E') = true → start < byteLength front) :
    exponentSign (octets (front ++ last :: cs)) start (byteLength front + last.utf8Size) b =
      ((c == '-' || c == '+') && (last == 'e' || last == 'E')) := by
  have hsign : (Char.ofUInt8 b == '-' || Char.ofUInt8 b == '+') = (c == '-' || c == '+') :=
    (Bytewise.beq (by decide)).or (Bytewise.beq (by decide)) c b hb
  have hpos := last.utf8Size_pos
  obtain ⟨p, hp, hlast⟩ :=
    exists_mem_utf8EncodeChar front last cs (Nat.sub_lt hpos Nat.one_pos)
  have hmarks : (Char.ofUInt8 p == 'e' || Char.ofUInt8 p == 'E') = (last == 'e' || last == 'E') :=
    (Bytewise.beq (by decide)).or (Bytewise.beq (by decide)) last p hp
  rw [← Nat.add_sub_assoc hpos] at hlast
  rw [exponentSign, hlast, Option.any_some, hsign, hmarks]
  cases hend : last == 'e' || last == 'E' with
  | false => rw [Bool.and_false, Bool.false_and]
  | true =>
    have hlt := hmark hend
    have hbefore : start < byteLength front + last.utf8Size - 1 := by omega
    rw [decide_eq_true hbefore, Bool.and_true]

/-- The loop over a number ends where the number does. -/
theorem advance_spanNumber {front : List Char} {last : Char} {cs text : List Char} {start : Nat}
    (htext : text = front ++ last :: cs)
    (hmark : (last == 'e' || last == 'E') = true → start < byteLength front)
    (hstart : start ≤ byteLength front) :
    advance (fun position b => !(isDelimiter (.ofUInt8 b) &&
        !exponentSign (octets text) start position b)) (octets text)
        (byteLength front + last.utf8Size) =
      byteLength front + last.utf8Size + byteLength (spanNumber last cs).1 := by
  induction cs generalizing front last with
  | nil =>
    refine advance_of_stop fun b hb => ?_
    rw [htext, List.getElem?_eq_none (by rw [length_octets, byteLength_concat])] at hb
    cases hb
  | cons c cs ih =>
    have htail : text = (front ++ [last]) ++ c :: cs := by rw [htext, List.append_assoc]; rfl
    rw [spanNumber_cons]
    cases hends : endsNumber last c with
    | true =>
      rw [if_pos rfl, advance_of_stop]
      · rfl
      · intro b hb
        have hmem : b ∈ String.utf8EncodeChar c := by
          rw [htail, ← byteLength_concat] at hb
          exact mem_utf8EncodeChar_of_octet c.utf8Size_pos hb
        rw [Bytewise.isDelimiter c b hmem, htext, exponentSign_eq hmem hmark, Bool.not_eq_false']
        exact hends
    | false =>
      rw [if_neg Bool.false_ne_true, advance_add (n := c.utf8Size), byteLength_cons]
      · have hlt : start < byteLength (front ++ [last]) := by
          have hpos := last.utf8Size_pos
          rw [byteLength_concat]
          omega
        have hnext := ih htail (fun _ => hlt) (Nat.le_of_lt hlt)
        rw [byteLength_concat] at hnext
        rw [hnext, Nat.add_assoc _ c.utf8Size]
      · intro i hi
        obtain ⟨b, hmem, hb⟩ := exists_mem_utf8EncodeChar (front ++ [last]) c cs hi
        rw [← htail, byteLength_concat] at hb
        refine ⟨b, hb, ?_⟩
        rw [Bytewise.isDelimiter c b hmem]
        cases hdelimiter : isDelimiter c with
        | false => rfl
        | true =>
          -- a delimiter is one byte, and so right behind the last character
          rw [utf8Size_of_lt (toNat_lt_of_isDelimiter hdelimiter)] at hi
          rw [Nat.lt_one_iff.mp hi, Nat.add_zero, htext, exponentSign_eq hmem hmark]
          rw [endsNumber, hdelimiter] at hends
          rw [hends]
          rfl

section Next

variable {cs front rest : List Char} {c : Char} {r : Reader}

theorem exists_first_octet (hcs : cs = front ++ c :: rest) :
    ∃ b ∈ String.utf8EncodeChar c, (octets cs)[byteLength front]? = some b := by
  rw [hcs]
  exact exists_mem_utf8EncodeChar front c rest c.utf8Size_pos

/-- A class of bytes sees the character at the front of what is left. -/
theorem any_first_octet {p : Char → Bool} (hp : Bytewise p) (front rest : List Char) :
    ((octets (front ++ rest))[byteLength front]?.any fun b => p (.ofUInt8 b)) = rest.head?.any p := by
  cases rest with
  | nil =>
    rw [List.append_nil, List.getElem?_eq_none (by simp)]
    rfl
  | cons c rest =>
    obtain ⟨b, hmem, hb⟩ := exists_mem_utf8EncodeChar front c rest c.utf8Size_pos
    rw [Nat.add_zero] at hb
    rw [hb]
    exact hp c b hmem

theorem slice?_front (front text rest : List Char) :
    slice? (front ++ (text ++ rest)) (byteLength front) (byteLength front + byteLength text) =
      some text :=
  slice?_eq_some_iff.mpr ⟨front, rest, (List.append_assoc _ _ _).symm, rfl, rfl⟩

theorem numberEnd_eq (hcs : cs = front ++ c :: rest) (hopens : c = '-' ∨ opensNumber c = true) :
    numberEnd (octets cs) (byteLength front) =
      byteLength front + byteLength (c :: (spanNumber c rest).1) := by
  have hmark : (c == 'e' || c == 'E') = true → byteLength front < byteLength front := by
    intro hmark
    rw [Bool.or_eq_true, beq_iff_eq, beq_iff_eq] at hmark
    rcases hmark with rfl | rfl
    all_goals exact absurd hopens (by decide)
  have hspan := advance_spanNumber hcs hmark (Nat.le_refl _)
  have hminus := any_first_octet (.beq (d := '-') (by decide)) front (c :: rest)
  rw [← hcs, List.head?_cons, Option.any_some] at hminus
  rw [byteLength_cons, ← Nat.add_assoc, ← hspan, numberEnd, hminus]
  rcases hopens with rfl | hopens
  · rfl
  · have hne : (c == '-') = false := by
      rw [beq_eq_false_iff_ne]
      rintro rfl
      cases hopens
    rw [hne, if_neg Bool.false_ne_true]
    refine advance_add fun i hi => ?_
    obtain ⟨b, hmem, hb⟩ := exists_mem_utf8EncodeChar front c rest hi
    refine ⟨b, hcs ▸ hb, ?_⟩
    rw [Bytewise.isDelimiter c b hmem, not_isDelimiter_of_opens (.inl hopens)]
    rfl

theorem startsNegative_octets (hcs : cs = front ++ '-' :: rest) {previous : Option Char}
    (hprevious : (r.previous.any fun b => closesOperand (.ofUInt8 b)) = previous.any closesOperand) :
    startsNegative (octets cs) (byteLength front) r.previous =
      Expression.startsNegative previous rest := by
  have hnext := any_first_octet .opensNumber (front ++ ['-']) rest
  rw [byteLength_concat, List.append_assoc, List.singleton_append, ← hcs] at hnext
  rw [startsNegative, startsNegative_eq, hprevious, ← hnext]
  rfl

theorem readNumber_eq (hcs : cs = front ++ c :: rest) (hopens : c = '-' ∨ opensNumber c = true) :
    readNumber (octets cs) cs (byteLength front) = some (match cutNumber c rest with
      | .error fault => .failed (.malformed fault (byteLength front))
      | .ok k =>
        .lexeme ⟨k.token, byteLength front⟩
          (readerAt (octets cs) (byteLength front + byteLength k.text))) := by
  have hslice : slice? cs (byteLength front)
      (byteLength front + byteLength (c :: (spanNumber c rest).1)) =
        some (c :: (spanNumber c rest).1) := by
    have hfront := slice?_front front (c :: (spanNumber c rest).1) (spanNumber c rest).2
    rw [List.cons_append, spanNumber_append, ← hcs] at hfront
    exact hfront
  rw [readNumber, numberEnd_eq hcs hopens, hslice, Option.map_some, cutNumber]
  simp only
  cases Decimal.read (c :: (spanNumber c rest).1) with
  | ok x => rfl
  | error fault => rfl

theorem readName_eq (hcs : cs = front ++ c :: rest) (hname : isNameStart c = true) :
    readName (octets cs) cs (byteLength front) =
      some (.lexeme ⟨(cutName c rest).token, byteLength front⟩
        (readerAt (octets cs) (byteLength front + byteLength (cutName c rest).text))) := by
  have hend : nameEnd (octets cs) (byteLength front) =
      byteLength front + byteLength (cutName c rest).text := by
    rw [nameEnd, hcs, advance_takeWhile Bytewise.isDelimiter.not, List.takeWhile_cons,
      not_isDelimiter_of_opens (.inr hname)]
    rfl
  rw [readName, hend]
  have hslice := slice?_front front (cutName c rest).text (cutName c rest).rest
  rw [cutName_append, ← hcs] at hslice
  rw [hslice]
  rfl

theorem readSymbol_eq (hcs : cs = front ++ c :: rest) (hdelimiter : isDelimiter c = true) {b : UInt8}
    (hb : b ∈ String.utf8EncodeChar c) :
    readSymbol (octets cs) b (byteLength front) =
      .lexeme ⟨(cutSymbol c rest).token, byteLength front⟩
        (readerAt (octets cs) (byteLength front + byteLength (cutSymbol c rest).text)) := by
  have hascii := toNat_lt_of_isDelimiter hdelimiter
  have hnext := any_first_octet (.beq (d := '=') (by decide)) (front ++ [c]) rest
  rw [byteLength_concat, utf8Size_of_lt hascii, List.append_assoc, List.singleton_append,
    ← hcs] at hnext
  have hhead : ((octets cs)[byteLength front + 1]?.map Char.ofUInt8).toList.head?.any (· == '=') =
      rest.head?.any (· == '=') := by
    rw [← hnext]
    cases (octets cs)[byteLength front + 1]? with
    | none => rfl
    | some d => rfl
  obtain ⟨htoken, htext⟩ := cutSymbol_congr hdelimiter hhead
  have hlength : (cutSymbol c rest).text.length = byteLength (cutSymbol c rest).text := by
    rcases text_cutSymbol c rest with htext | htext
    · rw [htext, byteLength_cons, utf8Size_of_lt hascii]
      rfl
    · rw [htext, byteLength_cons, utf8Size_of_lt hascii]
      rfl
  rw [readSymbol, ofUInt8_of_mem_utf8EncodeChar hascii hb, htoken, htext, hlength]

/-- A reader that stands at a lexeme reads what is cut off the text there. -/
theorem next_eq (hcs : cs = front ++ c :: rest) {previous : Option Char}
    (hposition : pastBlanks (octets cs) r.position = byteLength front)
    (hprevious : (r.previous.any fun b => closesOperand (.ofUInt8 b)) = previous.any closesOperand) :
    next cs r = some (match cut previous c rest with
      | .error fault => .failed (.malformed fault (byteLength front))
      | .ok k =>
        .lexeme ⟨k.token, byteLength front⟩
          (readerAt (octets cs) (byteLength front + byteLength k.text))) := by
  obtain ⟨b, hmem, hb⟩ := exists_first_octet hcs
  have hminus : (Char.ofUInt8 b == '-') = (c == '-') := Bytewise.beq (by decide) c b hmem
  have hsign : (c == '-' && startsNegative (octets cs) (byteLength front) r.previous) =
      (c == '-' && Expression.startsNegative previous rest) := by
    cases hc : c == '-' with
    | false => rfl
    | true =>
      rw [beq_iff_eq.mp hc] at hcs
      rw [startsNegative_octets hcs hprevious]
  have hopens : (c.isDigit || c == '.') = opensNumber c := rfl
  unfold next cut
  simp only [hposition, hb, hminus, Bytewise.opensNumber c b hmem, Bytewise.isNameStart c b hmem,
    Bytewise.isDelimiter c b hmem, hsign, hopens]
  split
  · rename_i hnegative
    exact readNumber_eq hcs (.inl (beq_iff_eq.mp (Bool.and_eq_true_iff.mp hnegative).1))
  · split
    · rename_i hnumber
      exact readNumber_eq hcs (.inr hnumber)
    · split
      · rename_i hname
        exact readName_eq hcs hname
      · split
        · rename_i hdelimiter
          exact congrArg some (readSymbol_eq hcs hdelimiter hmem)
        · rw [splitAt?_eq_some_iff.mpr ⟨hcs, rfl⟩]
          rfl

end Next

/-- The last byte of a lexeme is one of its last character. -/
theorem previous_readerAt {cs front text rest : List Char} (hcs : cs = front ++ (text ++ rest))
    (htext : text ≠ []) :
    ((readerAt (octets cs) (byteLength front + byteLength text)).previous.any
      fun b => closesOperand (.ofUInt8 b)) = text.getLast?.any closesOperand := by
  obtain ⟨init, d, rfl⟩ := (List.eq_nil_or_concat' text).resolve_left htext
  have hpos := d.utf8Size_pos
  have hstop : byteLength front + byteLength (init ++ [d]) =
      byteLength (front ++ init) + (d.utf8Size - 1) + 1 := by
    rw [byteLength_concat, byteLength_append]
    omega
  obtain ⟨b, hmem, hb⟩ :=
    exists_mem_utf8EncodeChar (front ++ init) d rest (Nat.sub_lt hpos Nat.one_pos)
  have hcs' : cs = (front ++ init) ++ d :: rest := by
    rw [hcs, List.append_assoc, List.append_assoc]
    rfl
  rw [hstop, readerAt, List.getLast?_concat, hcs', hb]
  exact Bytewise.closesOperand d b hmem

theorem scanFrom_blanks {bs : List Char} (hbs : ∀ c ∈ bs, isBlank c = true) (position : Nat)
    (previous : Option Char) (rest : List Char) :
    scanFrom position previous (bs ++ rest) = scanFrom (position + byteLength bs) previous rest := by
  induction bs generalizing position with
  | nil => rfl
  | cons b bs ih =>
    rw [List.cons_append, scanFrom, if_pos (hbs b List.mem_cons_self),
      ih fun c hc => hbs c (List.mem_cons_of_mem b hc), byteLength_cons, Nat.add_assoc]

theorem scanFrom_cut {c : Char} (hblank : isBlank c = false) (position : Nat)
    (previous : Option Char) (rest : List Char) :
    scanFrom position previous (c :: rest) =
      match cut previous c rest with
      | .error fault => .error (.malformed fault position)
      | .ok k =>
        (scanFrom (position + byteLength k.text) k.text.getLast? k.rest).map fun tail =>
          { tail with lexemes := ⟨k.token, position⟩ :: tail.lexemes } := by
  rw [scanFrom, if_neg (ne_true_of_eq_false hblank)]
  split
  · rename_i hcut
    rw [hcut]
  · rename_i k hcut
    rw [hcut]
    simp only
    split
    · rename_i htail
      rw [htail]
      rfl
    · rename_i htail
      rw [htail]
      rfl

theorem scanWithin_eq_scanFrom {cs front rest : List Char} {n : Nat} {r : Reader}
    {previous : Option Char} (hcs : cs = front ++ rest) (hn : byteLength rest < n)
    (hposition : r.position = byteLength front)
    (hprevious : (r.previous.any fun b => closesOperand (.ofUInt8 b)) = previous.any closesOperand) :
    scanWithin cs n r = some (scanFrom (byteLength front) previous rest) := by
  -- on the calls that are left, of which every lexeme takes one for its bytes
  induction n generalizing front rest r previous with
  | zero => exact absurd hn (Nat.not_lt_zero _)
  | succ n ih =>
    have hblanks : ∀ c ∈ rest.takeWhile isBlank, isBlank c = true := fun c => List.mem_takeWhile_imp
    have hstart : pastBlanks (octets cs) r.position = byteLength (front ++ rest.takeWhile isBlank) := by
      rw [hposition, hcs, pastBlanks, advance_takeWhile .isBlank, byteLength_append]
    have hscan : scanFrom (byteLength front) previous rest =
        scanFrom (byteLength (front ++ rest.takeWhile isBlank)) previous (rest.dropWhile isBlank) := by
      rw [byteLength_append, ← scanFrom_blanks hblanks, List.takeWhile_append_dropWhile]
    have hsplit : cs = front ++ rest.takeWhile isBlank ++ rest.dropWhile isBlank := by
      rw [List.append_assoc, List.takeWhile_append_dropWhile, hcs]
    have hbytes : byteLength (rest.dropWhile isBlank) ≤ byteLength rest := by
      conv_rhs => rw [← List.takeWhile_append_dropWhile (p := isBlank) (l := rest), byteLength_append]
      exact Nat.le_add_left _ _
    rw [scanWithin, hscan]
    cases hdrop : rest.dropWhile isBlank with
    | nil =>
      rw [hdrop, List.append_nil] at hsplit
      have hnext : next cs r = some (.stop (byteLength (front ++ rest.takeWhile isBlank))) := by
        unfold next
        simp only [hstart, ← hsplit]
        rw [List.getElem?_eq_none (by simp)]
      rw [hnext, scanFrom]
    | cons c more =>
      have hblank : isBlank c = false := by
        have hhead := List.head?_dropWhile_not isBlank rest
        rw [hdrop] at hhead
        simpa using hhead
      rw [hdrop] at hsplit hbytes
      rw [next_eq hsplit hstart hprevious, scanFrom_cut hblank]
      cases hcut : cut previous c more with
      | error fault => rfl
      | ok k =>
        have hpos := byteLength_pos (cut_text_ne_nil hcut)
        have hrest : byteLength k.text + byteLength k.rest = byteLength (c :: more) := by
          rw [← byteLength_append, cut_append hcut]
        have hcs' : cs = front ++ rest.takeWhile isBlank ++ (k.text ++ k.rest) := by
          rw [cut_append hcut]
          exact hsplit
        have htail : scanWithin cs n
            (readerAt (octets cs) (byteLength (front ++ rest.takeWhile isBlank) + byteLength k.text)) =
              some (scanFrom (byteLength (front ++ rest.takeWhile isBlank ++ k.text)) k.text.getLast?
                k.rest) := by
          refine ih ?_ (by omega) ?_ (previous_readerAt hcs' (cut_text_ne_nil hcut))
          · rw [List.append_assoc _ k.text, ← hcs']
          · rw [byteLength_append _ k.text]
            rfl
        simp only
        rw [htail, byteLength_append _ k.text]
        rfl

end Octets

/-! ### Bytes and lexemes -/

/-- The bytes that a lexeme takes up. -/
def Source.Spans (s : Source) (p : Nat) : Prop :=
  s.lexeme.position ≤ p ∧ p < s.lexeme.position + byteLength s.text

section Octet

variable {cs : List Char} {i : Nat} {b : UInt8}

theorem isBlank_of_octet {blank : Bool} (h : ∀ c ∈ cs, isBlank c = blank)
    (hb : (octets cs)[i]? = some b) : isBlank (.ofUInt8 b) = blank := by
  obtain ⟨c, hc, hbyte⟩ := List.mem_flatMap.mp (List.mem_of_getElem? hb)
  rw [Bytewise.isBlank c b hbyte, h c hc]

theorem getElem?_octets_left {front rest : List Char} (hi : i < byteLength front) :
    (octets (front ++ rest))[i]? = (octets front)[i]? := by
  rw [octets_append, List.getElem?_append_left (by simpa using hi)]

/-- A blank byte belongs to no lexeme, and any other one to one lexeme. -/
theorem Covers.octet {position : Nat} {sources : List Source} (h : Covers position cs sources)
    (hb : (octets cs)[i]? = some b) :
    (isBlank (.ofUInt8 b) = true → ∀ s ∈ sources, ¬ s.Spans (position + i)) ∧
      (isBlank (.ofUInt8 b) = false → ∃! s, s ∈ sources ∧ s.Spans (position + i)) := by
  induction h generalizing i with
  | blanks hbs =>
    refine ⟨fun _ s hs => (nomatch hs), fun hblank => ?_⟩
    rw [isBlank_of_octet hbs hb] at hblank
    cases hblank
  | @source position bs text rest token sources hbs _ htext _ hrest ih =>
    have hle := fun s hs => hrest.le_position (s := s) hs
    -- the byte is in the blanks, in the lexeme behind them or in the rest of the text
    by_cases hfront : i < byteLength bs
    · rw [getElem?_octets_left hfront] at hb
      refine ⟨fun _ s hs => ?_, fun hblank => ?_⟩
      · rintro ⟨hlow, -⟩
        rcases List.mem_cons.mp hs with rfl | hs
        · dsimp only at hlow
          omega
        · have hpos := hle s hs
          omega
      · rw [isBlank_of_octet hbs hb] at hblank
        cases hblank
    · obtain ⟨j, rfl⟩ := Nat.exists_eq_add_of_le (Nat.le_of_not_lt hfront)
      rw [getElem?_octets_append] at hb
      by_cases hin : j < byteLength text
      · rw [getElem?_octets_left hin] at hb
        refine ⟨fun hblank => ?_, fun _ => ?_⟩
        · rw [isBlank_of_octet htext hb] at hblank
          cases hblank
        · refine ⟨_, ⟨List.mem_cons_self, ?_⟩, ?_⟩
          · rw [Source.Spans]
            dsimp only
            omega
          · rintro s ⟨hs, hlow, -⟩
            rcases List.mem_cons.mp hs with rfl | hs
            · rfl
            · have hpos := hle s hs
              omega
      · obtain ⟨k, rfl⟩ := Nat.exists_eq_add_of_le (Nat.le_of_not_lt hin)
        rw [getElem?_octets_append] at hb
        have hplace : position + (byteLength bs + (byteLength text + k)) =
            position + byteLength bs + byteLength text + k := by omega
        have hnot : ¬ Source.Spans ⟨⟨token, position + byteLength bs⟩, text⟩
            (position + byteLength bs + byteLength text + k) := by
          rintro ⟨-, hhigh⟩
          dsimp only at hhigh
          omega
        obtain ⟨hnone, hone⟩ := ih hb
        rw [hplace]
        refine ⟨fun hblank => List.forall_mem_cons.mpr ⟨hnot, hnone hblank⟩, fun hblank => ?_⟩
        obtain ⟨s, ⟨hs, hspans⟩, hunique⟩ := hone hblank
        refine ⟨s, ⟨List.mem_cons_of_mem _ hs, hspans⟩, ?_⟩
        rintro s' ⟨hs', hspans'⟩
        rcases List.mem_cons.mp hs' with rfl | hs'
        · exact absurd hspans' hnot
        · exact hunique s' ⟨hs', hspans'⟩

/-- A byte below 128 is a character of its own. -/
theorem exists_of_octet_lt (hb : (octets cs)[i]? = some b) (hlt : b.toNat < 128) :
    ∃ before after, cs = before ++ .ofUInt8 b :: after ∧ byteLength before = i := by
  induction cs generalizing i with
  | nil => cases hb
  | cons c cs ih =>
    by_cases hi : i < c.utf8Size
    · have hmem : b ∈ String.utf8EncodeChar c := by
        refine mem_utf8EncodeChar_of_octet hi (?_ : (octets ([] ++ c :: cs))[byteLength [] + i]? = some b)
        rw [byteLength_nil, Nat.zero_add]
        exact hb
      have hascii : c.toNat < 128 := Nat.lt_of_not_le fun hle =>
        Nat.not_lt.mpr (le_toNat_of_mem_utf8EncodeChar hle hmem) hlt
      rw [utf8Size_of_lt hascii] at hi
      rw [ofUInt8_of_mem_utf8EncodeChar hascii hmem]
      exact ⟨[], cs, rfl, (Nat.lt_one_iff.mp hi).symm⟩
    · obtain ⟨j, rfl⟩ := Nat.exists_eq_add_of_le (Nat.le_of_not_lt hi)
      have htail := getElem?_octets_append [c] cs j
      rw [byteLength_cons, byteLength_nil, Nat.add_zero, List.singleton_append, hb] at htail
      obtain ⟨before, after, rfl, rfl⟩ := ih htail.symm
      exact ⟨c :: before, after, rfl, rfl⟩

end Octet

/-- The scan by bytes ends within one call for each byte and one more, and never slices within a
character, whether it succeeds or fails. If it succeeds, lexemes and blanks follow one another from the
front of the text to its end: each byte that is no blank is in one lexeme, and a parenthesis is one. -/
theorem octets_scan (cs : List Char) :
    (∀ n, byteLength cs < n → Octets.scanWithin cs n {} = some (scan cs)) ∧
    ∀ lexed, scan cs = .ok lexed →
      lexed.lexemes.length ≤ byteLength cs ∧ lexed.stop = byteLength cs ∧
      (lexed.lexemes.map Lexeme.position ++ [lexed.stop]).Pairwise (· < ·) ∧
      ∃ sources, sources.map Source.lexeme = lexed.lexemes ∧ Covers 0 cs sources ∧
        (∀ (i : Nat) b, (octets cs)[i]? = some b →
          (isBlank (.ofUInt8 b) = true → ∀ s ∈ sources, ¬ s.Spans i) ∧
          (isBlank (.ofUInt8 b) = false → ∃! s, s ∈ sources ∧ s.Spans i)) ∧
        ∀ (i : Nat) b sym, (octets cs)[i]? = some b → parenthesis? (.ofUInt8 b) = some sym →
          ⟨⟨.symbol sym, i⟩, [.ofUInt8 b]⟩ ∈ sources := by
  refine ⟨fun n hn => ?_, fun lexed h => ?_⟩
  · exact Octets.scanWithin_eq_scanFrom (List.nil_append cs).symm hn rfl rfl
  have hscans := Scans.of_scanFrom h
  obtain ⟨sources, hlexemes, hcovers⟩ := Covers.of_scans hscans
  have hstop : lexed.stop = byteLength cs := by rw [hscans.stop_eq, Nat.zero_add]
  refine ⟨?_, hstop, ?_, sources, hlexemes, hcovers, fun i b hb => ?_, fun i b sym hb hsym => ?_⟩
  · rw [← hlexemes, List.length_map]
    exact hcovers.length_le
  · have hpairwise := hcovers.pairwise_lt
    rw [Nat.zero_add] at hpairwise
    rw [← hlexemes, List.map_map, hstop]
    exact hpairwise
  · have hoctet := hcovers.octet hb
    rw [Nat.zero_add] at hoctet
    exact hoctet
  · have hlt : b.toNat < 128 := by
      rcases parenthesis?_eq_some hsym with ⟨hc, -⟩ | ⟨hc, -⟩
      all_goals
        have hcode := congrArg Char.toNat hc
        change b.toNat = _ at hcode
        rw [hcode]
        decide
    obtain ⟨before, after, hcs, rfl⟩ := exists_of_octet_lt hb hlt
    have hmem := hcovers.parenthesis hcs hsym
    rw [Nat.zero_add] at hmem
    exact hmem

end ChoiceModel.Expression
