import Mathlib.Data.List.Forall2
import SqlDispatch.Text.Json
import SqlDispatch.Token.Grammar

set_option autoImplicit false

/-!
The grammar of JSON, said without writing it. A string is an escape for each of its characters
between two marks; a number has no zero in front and digits behind its point; the parts of arrays
and objects are told apart by commas. The text of every value is of this grammar, with the members
and items in order and each string standing for itself (`spells_chars`), and nothing of the grammar
has a control character in it (`hasNoControl_of_spells`), so that a text is one line.
-/

namespace SqlDispatch.Text

def IsWhole (cs : List Char) : Prop :=
  cs = ['0'] ∨ cs ≠ [] ∧ Grammar.AreDigits cs ∧ cs.head? ≠ some '0'

theorem areDigits_digits (n : Nat) : Grammar.AreDigits (digits n) :=
  fun _ hc => Nat.isDigit_of_mem_toDigits (by decide) (by decide) hc

theorem head_digits_ne_zero {n : Nat} (h : n ≠ 0) : (digits n).head? ≠ some '0' := by
  induction n using Nat.strongRecOn with
  | ind n ih =>
    unfold digits at ih ⊢
    by_cases hn : n < 10
    · have hd : ∀ n < 10, n ≠ 0 → n.digitChar ≠ '0' := by decide
      rw [Nat.toDigits_of_lt_base hn]
      simpa using hd n hn h
    · have hl := ih (n / 10) (by omega) (by omega)
      rw [Nat.toDigits_of_base_le (by decide) (Nat.not_lt.1 hn)]
      rwa [List.head?_append_of_ne_nil _ Nat.toDigits_ne_nil]

theorem isWhole_digits (n : Nat) : IsWhole (digits n) := by
  by_cases h : n = 0
  · subst h
    exact .inl (Nat.toDigits_zero 10)
  · exact .inr ⟨Nat.toDigits_ne_nil, areDigits_digits n, head_digits_ne_zero h⟩

namespace Binary

variable {number : Binary}

theorem ratio_up_pos (number : Binary) (exponent : Int) : 0 < (number.ratio exponent).up :=
  Nat.mul_pos (Nat.pow_pos (by decide)) (Nat.pow_pos (by decide))

/-- Zero rounds to no other number. -/
theorem digits_ne_zero_of_reads {decimal : Decimal} (hs : number.significand ≠ 0)
    (h : number.reads decimal = true) : decimal.digits ≠ 0 := by
  intro hz
  have hup := number.ratio_up_pos decimal.exponent
  have hl : 0 < number.least * (number.ratio decimal.exponent).up := by
    refine Nat.mul_pos ?_ hup
    unfold least quarters
    split <;> omega
  have hg : 0 < number.greatest * (number.ratio decimal.exponent).up :=
    Nat.mul_pos (Nat.succ_pos _) hup
  simp only [reads, hz, Nat.zero_mul] at h
  simp [Nat.ne_of_lt hl, Nat.ne_of_lt hg] at h

theorem digits_ne_zero_of_nearest? {exponent : Int} {decimal : Decimal}
    (hs : number.significand ≠ 0) (h : number.nearest? exponent = some decimal) :
    decimal.digits ≠ 0 := by
  have hn (low : Decimal) : low.next.digits ≠ 0 := Nat.succ_ne_zero _
  simp only [nearest?] at h
  split at h
  · rename_i hl _
    rw [← Option.some.inj h, nearer]
    split
    · exact digits_ne_zero_of_reads hs hl
    · exact hn _
    · split
      · exact digits_ne_zero_of_reads hs hl
      · exact hn _
  · rename_i hl _
    rw [← Option.some.inj h]
    exact digits_ne_zero_of_reads hs hl
  · rw [← Option.some.inj h]
    exact hn _
  · cases h

theorem digits_shortest_ne_zero (hs : number.significand ≠ 0) : number.shortest.digits ≠ 0 := by
  unfold shortest
  cases hf : number.exponents.findSome? number.nearest? with
  | some decimal =>
    obtain ⟨exponent, _, hn⟩ := List.exists_of_findSome?_eq_some hf
    exact digits_ne_zero_of_nearest? hs hn
  | none =>
    have hp (base n : Nat) (hb : 0 < base) : number.significand * Nat.pow base n ≠ 0 :=
      Nat.mul_ne_zero hs (Nat.pos_iff_ne_zero.1 (Nat.pow_pos hb))
    rw [Option.getD_none, exact]
    split
    · exact hp 2 _ (by decide)
    · exact hp 5 _ (by decide)

end Binary

namespace Json

def IsFraction (cs : List Char) : Prop :=
  ∃ part, cs = '.' :: part ∧ part ≠ [] ∧ Grammar.AreDigits part

def IsMagnitude (cs : List Char) : Prop :=
  ∃ whole fraction exponent, cs = whole ++ (fraction ++ exponent) ∧ IsWhole whole ∧
    (fraction = [] ∨ IsFraction fraction) ∧ (exponent = [] ∨ Grammar.IsExponent exponent)

def IsNumber (cs : List Char) : Prop :=
  IsMagnitude cs ∨ ∃ rest, cs = '-' :: rest ∧ IsMagnitude rest

theorem isMagnitude_digits (n : Nat) : IsMagnitude (digits n) :=
  ⟨digits n, [], [], by simp, isWhole_digits n, .inl rfl, .inl rfl⟩

theorem isNumber_decimal (value : Int) : IsNumber (decimal value).toList := by
  cases value with
  | ofNat n =>
    rw [decimal, String.toList_ofList]
    exact .inl (isMagnitude_digits n)
  | negSucc n =>
    rw [decimal, String.toList_ofList]
    exact .inr ⟨_, rfl, isMagnitude_digits _⟩

theorem areDigits_zeros (n : Nat) : Grammar.AreDigits (Binary64.zeros n) := by
  intro c hc
  rw [List.eq_of_mem_replicate hc]
  rfl

section Layout

variable {ds : List Char}

theorem isMagnitude_plain (hd : Grammar.AreDigits ds) (hn : ds ≠ []) (hz : ds.head? ≠ some '0')
    (whole : Int) : IsMagnitude (Binary64.plain ds whole) := by
  unfold Binary64.plain
  split
  · exact ⟨['0'], '.' :: ds, [], by simp, .inl rfl, .inr ⟨ds, rfl, hn, hd⟩, .inl rfl⟩
  · rename_i n
    have hp : Grammar.AreDigits (Binary64.zeros (n + 1) ++ ds) :=
      List.forall_mem_append.2 ⟨areDigits_zeros _, hd⟩
    exact ⟨['0'], '.' :: (Binary64.zeros (n + 1) ++ ds), [], by simp, .inl rfl,
      .inr ⟨_, rfl, by simp [hn], hp⟩, .inl rfl⟩
  · rename_i n h
    obtain ⟨d, ds, rfl⟩ := List.exists_cons_of_ne_nil hn
    obtain ⟨m, rfl⟩ := Nat.exists_eq_succ_of_ne_zero h
    have hw : Grammar.AreDigits
        ((d :: ds).take (m + 1) ++ Binary64.zeros (m + 1 - (d :: ds).length)) :=
      List.forall_mem_append.2 ⟨fun c hc => hd c (List.mem_of_mem_take hc), areDigits_zeros _⟩
    refine ⟨_, _, [], by rw [List.append_nil], .inr ⟨by simp, hw, by simpa using hz⟩,
      .inr ⟨_, rfl, ?_, ?_⟩, .inl rfl⟩
    · split <;> simp_all
    · split
      · simp [Grammar.AreDigits]
      · exact fun c hc => hd c (List.mem_of_mem_drop hc)

theorem isMagnitude_scientific (hd : Grammar.AreDigits ds) (hn : ds ≠ []) (power : Int) :
    IsMagnitude (Binary64.scientific ds power) := by
  obtain ⟨d, ds, rfl⟩ := List.exists_cons_of_ne_nil hn
  obtain ⟨hf, hr⟩ := List.forall_mem_cons.1 hd
  have hw : IsWhole [d] := by
    by_cases h : d = '0'
    · exact .inl (by rw [h])
    · exact .inr ⟨by simp, by simpa [Grammar.AreDigits] using hf, by simpa using h⟩
  have he : Grammar.IsExponent
      ('e' :: (if power < 0 then '-' else '+') :: digits power.natAbs) := by
    refine ⟨'e', [if power < 0 then '-' else '+'], digits power.natAbs, rfl, by simp, ?_,
      Nat.toDigits_ne_nil, areDigits_digits _⟩
    split <;> simp
  refine ⟨[d], if ds = [] then [] else '.' :: ds, _, ?_, hw, ?_, .inr he⟩
  · cases ds <;> simp [Binary64.scientific]
  · split
    · exact .inl rfl
    · rename_i h
      exact .inr ⟨ds, rfl, h, hr⟩

end Layout

theorem isMagnitude_layout {decimal : Decimal} (h : decimal.digits ≠ 0) :
    IsMagnitude (Binary64.layout decimal) := by
  unfold Binary64.layout
  simp only
  split
  · exact isMagnitude_plain (areDigits_digits _) Nat.toDigits_ne_nil (head_digits_ne_zero h) _
  · exact isMagnitude_scientific (areDigits_digits _) Nat.toDigits_ne_nil _

theorem isNumber_chars (number : Binary64) : IsNumber number.chars := by
  have hm : IsMagnitude (if number.magnitude.significand = 0 then "0.0".toList
      else Binary64.layout number.magnitude.shortest) := by
    split
    · have hz : Grammar.AreDigits ['0'] := by simp [Grammar.AreDigits]
      exact ⟨['0'], ['.', '0'], [], rfl, .inl rfl, .inr ⟨['0'], rfl, by simp, hz⟩, .inl rfl⟩
    · rename_i h
      exact isMagnitude_layout (Binary.digits_shortest_ne_zero h)
  unfold Binary64.chars
  simp only
  cases number.isNegative with
  | true => exact .inr ⟨_, rfl, hm⟩
  | false => exact .inl hm

def shortEscapes : List (Char × Char) :=
  [('\x22', '\x22'), ('\\', '\\'), ('/', '/'), ('b', '\x08'), ('f', '\x0c'), ('n', '\n'),
    ('r', '\r'), ('t', '\t')]

inductive IsEscape : List Char → Char → Prop where
  | plain {c : Char} : 0x20 ≤ c.toNat → c ≠ '\x22' → c ≠ '\\' → IsEscape [c] c
  | short {mark c : Char} : (mark, c) ∈ shortEscapes → IsEscape ['\\', mark] c
  | code {marks : List Char} {values : List (Fin 16)} {c : Char} :
      marks.map hexValue = values.map some → values.length = 4 →
      c.toNat = values.foldl (fun n value => 16 * n + value.val) 0 →
      IsEscape ('\\' :: 'u' :: marks) c

def IsQuoted (cs : List Char) (text : String) : Prop :=
  ∃ parts, cs = '\x22' :: parts.flatten ++ ['\x22'] ∧ List.Forall₂ IsEscape parts text.toList

theorem isEscape_escape (c : Char) : IsEscape (escape c) c := by
  have hs (d : Char) (h : c.toNat = d.toNat) (mark : Char) (hm : (mark, d) ∈ shortEscapes) :
      IsEscape ['\\', mark] c := by
    rw [Char.toNat_inj.1 h]
    exact .short hm
  unfold escape
  split
  · rename_i h
    exact hs '\x22' (congrArg _ h) _ (by decide)
  split
  · rename_i h
    exact hs '\\' (congrArg _ h) _ (by decide)
  split
  · rename_i h
    exact hs '\x08' h _ (by decide)
  split
  · rename_i h
    exact hs '\t' h _ (by decide)
  split
  · rename_i h
    exact hs '\n' h _ (by decide)
  split
  · rename_i h
    exact hs '\x0c' h _ (by decide)
  split
  · rename_i h
    exact hs '\r' h _ (by decide)
  split
  · rename_i h
    have hz : hexValue '0' = some 0 := by decide
    have hm : ['0', '0', hexDigit (lowNibble (c.toNat / 16)), hexDigit (lowNibble c.toNat)].map
        hexValue = [0, 0, lowNibble (c.toNat / 16), lowNibble c.toNat].map some := by
      simp [hz, hexValue_hexDigit]
    refine .code hm rfl ?_
    simp only [List.foldl, lowNibble, Fin.val_zero]
    omega
  · rename_i hq hr _ _ _ _ _ h
    exact .plain (Nat.not_lt.1 h) hq hr

theorem isQuoted_quoted (text : String) : IsQuoted (quoted text) text := by
  refine ⟨text.toList.map escape, by simp [quoted, List.flatMap_def], ?_⟩
  rw [List.forall₂_map_left_iff]
  exact List.forall₂_same.2 fun c _ => isEscape_escape c

mutual

/-- The characters are the text of the value; of a real it is only said that a number stands there,
or null if the real is not finite. -/
inductive Spells : List Char → Json → Prop where
  | null : Spells "null".toList .null
  | yes : Spells "true".toList (.bool true)
  | no : Spells "false".toList (.bool false)
  | integer {cs : List Char} {value : Int} :
      IsNumber cs → Text.integer (.ofList cs) = some value → Spells cs (.integer value)
  | real {cs : List Char} {value : Binary64} :
      value.isFinite = true → IsNumber cs → Spells cs (.real value)
  | notFinite {value : Binary64} : value.isFinite = false → Spells "null".toList (.real value)
  | text {cs : List Char} {value : String} : IsQuoted cs value → Spells cs (.text value)
  | array {cs : List Char} {items : List Json} :
      SpellsItems cs items → Spells ('[' :: cs ++ [']']) (.array items)
  | object {cs : List Char} {members : List (String × Json)} :
      SpellsMembers cs members → Spells ('\x7b' :: cs ++ ['\x7d']) (.object members)

inductive SpellsItems : List Char → List Json → Prop where
  | nil : SpellsItems [] []
  | single {cs : List Char} {item : Json} : Spells cs item → SpellsItems cs [item]
  | cons {cs more : List Char} {item next : Json} {rest : List Json} :
      Spells cs item → SpellsItems more (next :: rest) →
      SpellsItems (cs ++ ',' :: more) (item :: next :: rest)

inductive SpellsMembers : List Char → List (String × Json) → Prop where
  | nil : SpellsMembers [] []
  | single {key cs : List Char} {name : String} {value : Json} :
      IsQuoted key name → Spells cs value → SpellsMembers (key ++ ':' :: cs) [(name, value)]
  | cons {key cs more : List Char} {name : String} {value : Json} {next : String × Json}
      {rest : List (String × Json)} :
      IsQuoted key name → Spells cs value → SpellsMembers more (next :: rest) →
      SpellsMembers (key ++ ':' :: cs ++ ',' :: more) ((name, value) :: next :: rest)

end

mutual

theorem spells_chars : ∀ value : Json, Spells value.chars value
  | .null => .null
  | .bool true => .yes
  | .bool false => .no
  | .integer value => by
    refine .integer (isNumber_decimal value) ?_
    rw [chars, String.ofList_toList, integer_decimal]
  | .real value => by
    unfold chars
    cases h : value.isFinite with
    | true => exact .real h (isNumber_chars value)
    | false => exact .notFinite h
  | .text value => .text (isQuoted_quoted value)
  | .array items => .array (spells_charsOfItems items)
  | .object members => .object (spells_charsOfMembers members)

theorem spells_charsOfItems : ∀ items : List Json, SpellsItems (charsOfItems items) items
  | [] => .nil
  | [item] => .single (spells_chars item)
  | item :: next :: rest => .cons (spells_chars item) (spells_charsOfItems (next :: rest))

theorem spells_charsOfMembers :
    ∀ members : List (String × Json), SpellsMembers (charsOfMembers members) members
  | [] => .nil
  | [(name, value)] => .single (isQuoted_quoted name) (spells_chars value)
  | (name, value) :: next :: rest =>
    .cons (isQuoted_quoted name) (spells_chars value) (spells_charsOfMembers (next :: rest))

end

def HasNoControl (cs : List Char) : Prop := ∀ c ∈ cs, 0x20 ≤ c.toNat

theorem hasNoControl_nil : HasNoControl [] := by simp [HasNoControl]

theorem HasNoControl.append {front back : List Char} (hf : HasNoControl front)
    (hb : HasNoControl back) : HasNoControl (front ++ back) := List.forall_mem_append.2 ⟨hf, hb⟩

theorem HasNoControl.cons {c : Char} {cs : List Char} (hc : 0x20 ≤ c.toNat) (h : HasNoControl cs) :
    HasNoControl (c :: cs) := List.forall_mem_cons.2 ⟨hc, h⟩

theorem hasNoControl_of_areDigits {cs : List Char} (h : Grammar.AreDigits cs) :
    HasNoControl cs := by
  intro c hc
  have hd := h c hc
  simp only [Char.isDigit, Bool.and_eq_true, decide_eq_true_eq] at hd
  have hl : 48 ≤ c.toNat := hd.1
  omega

theorem hasNoControl_of_isMagnitude {cs : List Char} (h : IsMagnitude cs) : HasNoControl cs := by
  obtain ⟨whole, fraction, exponent, rfl, hw, hf, he⟩ := h
  refine .append ?_ (.append ?_ ?_)
  · rcases hw with rfl | ⟨_, hw, _⟩
    · exact .cons (by decide) hasNoControl_nil
    · exact hasNoControl_of_areDigits hw
  · rcases hf with rfl | ⟨part, rfl, _, hp⟩
    · exact hasNoControl_nil
    · exact .cons (by decide) (hasNoControl_of_areDigits hp)
  · rcases he with rfl | ⟨letter, sign, part, rfl, hl, hs, _, hp⟩
    · exact hasNoControl_nil
    · refine .append (.cons ?_ ?_) (hasNoControl_of_areDigits hp)
      · rcases List.mem_pair.1 hl with rfl | rfl <;> decide
      · revert sign
        simp [HasNoControl]

theorem hasNoControl_of_isNumber {cs : List Char} (h : IsNumber cs) : HasNoControl cs := by
  rcases h with h | ⟨rest, rfl, h⟩
  · exact hasNoControl_of_isMagnitude h
  · exact .cons (by decide) (hasNoControl_of_isMagnitude h)

theorem le_toNat_of_hexValue {c : Char} {n : Fin 16} (h : hexValue c = some n) :
    0x20 ≤ c.toNat := by
  by_contra hc
  have hn : ∀ n < 0x20, hexValue (Char.ofNat n) = none := by decide
  have hv := hn c.toNat (Nat.not_le.1 hc)
  rw [Char.ofNat_toNat, h] at hv
  cases hv

theorem hasNoControl_of_isEscape {cs : List Char} {c : Char} (h : IsEscape cs c) :
    HasNoControl cs := by
  cases h with
  | plain hc => exact .cons hc hasNoControl_nil
  | short hm =>
    have hs : ∀ pair ∈ shortEscapes, 0x20 ≤ pair.1.toNat := by decide
    exact .cons (by decide) (.cons (hs _ hm) hasNoControl_nil)
  | @code marks values _ hm =>
    refine .cons (by decide) (.cons (by decide) fun d hd => ?_)
    have hv : hexValue d ∈ values.map some := hm ▸ List.mem_map_of_mem hd
    obtain ⟨n, _, hn⟩ := List.mem_map.1 hv
    exact le_toNat_of_hexValue hn.symm

theorem hasNoControl_of_isQuoted {cs : List Char} {text : String} (h : IsQuoted cs text) :
    HasNoControl cs := by
  obtain ⟨parts, rfl, hp⟩ := h
  generalize text.toList = characters at hp
  have hf : HasNoControl parts.flatten := by
    induction hp with
    | nil => exact hasNoControl_nil
    | cons he _ ih => exact .append (hasNoControl_of_isEscape he) ih
  exact .append (.cons (by decide) hf) (.cons (by decide) hasNoControl_nil)

mutual

theorem hasNoControl_of_spells {cs : List Char} {value : Json} :
    Spells cs value → HasNoControl cs
  | .null | .notFinite _ | .yes | .no => by simp [HasNoControl]
  | .integer h _ | .real _ h => hasNoControl_of_isNumber h
  | .text h => hasNoControl_of_isQuoted h
  | .array h =>
    .append (.cons (by decide) (hasNoControl_of_spellsItems h)) (.cons (by decide) hasNoControl_nil)
  | .object h =>
    .append (.cons (by decide) (hasNoControl_of_spellsMembers h))
      (.cons (by decide) hasNoControl_nil)

theorem hasNoControl_of_spellsItems {cs : List Char} {items : List Json} :
    SpellsItems cs items → HasNoControl cs
  | .nil => hasNoControl_nil
  | .single h => hasNoControl_of_spells h
  | .cons h hr =>
    .append (hasNoControl_of_spells h) (.cons (by decide) (hasNoControl_of_spellsItems hr))

theorem hasNoControl_of_spellsMembers {cs : List Char} {members : List (String × Json)} :
    SpellsMembers cs members → HasNoControl cs
  | .nil => hasNoControl_nil
  | .single hk h =>
    .append (hasNoControl_of_isQuoted hk) (.cons (by decide) (hasNoControl_of_spells h))
  | .cons hk h hr =>
    .append (.append (hasNoControl_of_isQuoted hk) (.cons (by decide) (hasNoControl_of_spells h)))
      (.cons (by decide) (hasNoControl_of_spellsMembers hr))

end

end Json

end SqlDispatch.Text
