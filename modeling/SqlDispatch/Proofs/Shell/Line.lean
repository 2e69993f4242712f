import SqlDispatch.Shell.Line

set_option autoImplicit false

/-!
The lines of a text. Bytes are cut into lines where their characters are: no character but the line
end has the byte of one, and none but the carriage return has the byte of that. So the lines of an
input that is a text can all be read, and they are its lines (`lines_encode`).
-/

namespace SqlDispatch

open Text

namespace Text

theorem mem_utf8EncodeChar_iff {b : UInt8} (hb : b.toNat < 0x80) (c : Char) :
    b ∈ String.utf8EncodeChar c ↔ c.toNat = b.toNat := by
  have hc : c.val.toNat < 0x110000 := by
    rcases c.valid with h | h
    · exact Nat.lt_trans h (by decide)
    · exact h.2
  change _ ↔ c.val.toNat = b.toNat
  simp only [String.utf8EncodeChar]
  generalize c.val.toNat = v at hc ⊢
  repeat' split
  all_goals simp only [List.mem_cons, List.not_mem_nil, or_false, ← UInt8.toNat_inj,
    UInt8.toNat_ofNat']
  all_goals omega

theorem encode_ofList (cs : List Char) :
    encode (.ofList cs) = cs.flatMap String.utf8EncodeChar := by
  rw [encode, String.toList_ofList]

theorem mem_encode_iff {b : UInt8} {c : Char} (hb : b.toNat < 0x80) (hc : c.toNat = b.toNat)
    (text : String) : b ∈ encode text ↔ c ∈ text.toList := by
  simp only [encode, List.mem_flatMap, mem_utf8EncodeChar_iff hb]
  constructor
  · intro h
    obtain ⟨d, hm, hd⟩ := h
    rwa [← Char.toNat_inj.1 (hd.trans hc.symm)]
  · intro h
    exact ⟨c, h, hc⟩

end Text

namespace Shell

theorem lineFeed_mem_encode_iff (text : String) :
    lineFeed ∈ encode text ↔ '\n' ∈ text.toList :=
  mem_encode_iff (by decide) (by decide) text

def withoutReturn (line : List Char) : List Char :=
  if line.getLast? = some '\r' then line.dropLast else line

/-- The lines of a text: what stands before a line end, without a carriage return there, and what
stands behind the last, if anything does. -/
def linesOfText (text : String) : List String :=
  let pieces := text.toList.splitOn '\n'
  (pieces.dropLast.map withoutReturn ++ (pieces.getLast?.filter (· ≠ [])).toList).map .ofList

theorem linesOf_eq (pieces : List (List UInt8)) :
    linesOf pieces =
      pieces.dropLast.map dropReturn ++ (pieces.getLast?.filter (· ≠ [])).toList := by
  fun_induction linesOf pieces with
  | case1 => rfl
  | case2 => rfl
  | case3 last h => simp [Option.filter, h]
  | case4 line rest hr ih =>
    obtain ⟨second, rest, rfl⟩ := List.exists_cons_of_ne_nil fun h => hr h
    rw [ih]
    rfl

theorem splitOn_append_of_not_mem {α : Type} [DecidableEq α] {x : α} {front : List α}
    (h : x ∉ front) (rest : List α) :
    (front ++ rest).splitOn x = (rest.splitOn x).modifyHead (front ++ ·) := by
  induction front with
  | nil =>
    rw [List.nil_append]
    cases rest.splitOn x <;> rfl
  | cons y front ih =>
    simp only [List.mem_cons, not_or] at h
    rw [List.cons_append, List.splitOn_cons_eq_if_modifyHead, if_neg (by simpa using Ne.symm h.1),
      ih h.2, List.modifyHead_modifyHead]
    rfl

theorem splitOn_flatMap (cs : List Char) :
    (cs.flatMap String.utf8EncodeChar).splitOn lineFeed =
      (cs.splitOn '\n').map (·.flatMap String.utf8EncodeChar) := by
  induction cs with
  | nil => rfl
  | cons c cs ih =>
    rw [List.flatMap_cons, List.splitOn_cons_eq_if_modifyHead]
    by_cases hc : c = '\n'
    · subst hc
      have hb : String.utf8EncodeChar '\n' = [lineFeed] := by decide
      rw [hb, List.singleton_append, List.splitOn_cons_eq_if_modifyHead, if_pos (by simp),
        if_pos (by simp), ih]
      rfl
    · have hb : lineFeed ∉ String.utf8EncodeChar c := by
        rw [mem_utf8EncodeChar_iff (by decide)]
        exact fun h => hc (Char.toNat_inj.1 h)
      rw [splitOn_append_of_not_mem hb, if_neg (by simpa using hc), ih]
      cases cs.splitOn '\n' <;> simp

theorem dropReturn_flatMap (cs : List Char) :
    dropReturn (cs.flatMap String.utf8EncodeChar) =
      (withoutReturn cs).flatMap String.utf8EncodeChar := by
  unfold dropReturn withoutReturn
  rcases List.eq_nil_or_concat cs with rfl | ⟨front, c, rfl⟩
  · rfl
  · rw [List.concat_eq_append, List.flatMap_append, List.flatMap_singleton, List.getLast?_concat]
    by_cases hc : c = '\r'
    · subst hc
      have hb : String.utf8EncodeChar '\r' = [carriageReturn] := by decide
      simp [hb]
    · obtain ⟨b, hb⟩ := Option.ne_none_iff_exists'.1
        (mt List.getLast?_eq_none_iff.1 (String.utf8EncodeChar_ne_nil (c := c)))
      have hn : b ≠ carriageReturn := by
        rintro rfl
        have hm := List.mem_of_getLast? hb
        rw [mem_utf8EncodeChar_iff (by decide)] at hm
        exact hc (Char.toNat_inj.1 hm)
      simp [hb, hn, hc]

theorem lines_encode (text : String) : lines (encode text) = (linesOfText text).map some := by
  have hd (cs : List Char) :
      decode (cs.flatMap String.utf8EncodeChar) = some (.ofList cs) := by
    rw [← encode_ofList, decode_encode]
  unfold lines linesOfText
  rw [encode, splitOn_flatMap, linesOf_eq, ← List.map_dropLast, List.getLast?_map]
  simp only [List.map_append, List.map_map, Function.comp_def, dropReturn_flatMap, hd]
  congr 1
  cases (text.toList.splitOn '\n').getLast? with
  | none => rfl
  | some last =>
    have hn : last.flatMap String.utf8EncodeChar = [] ↔ last = [] := by
      cases last <;> simp [String.utf8EncodeChar_ne_nil]
    by_cases hl : last = []
    · simp [Option.filter, hl]
    · simp [Option.filter, hn, hl, hd]

example : linesOfText "a\r\n\nb\r" = ["a", "", "b\r"] := by decide +kernel

theorem lines_append_lineFeed {line : List UInt8} (h : lineFeed ∉ line) (rest : List UInt8) :
    lines (line ++ lineFeed :: rest) = decode (dropReturn line) :: lines rest := by
  obtain ⟨first, others, ho⟩ := List.exists_cons_of_ne_nil (List.splitOn_ne_nil lineFeed rest)
  rw [lines, List.splitOn_append_cons_self_of_not_mem h, lines, ho, linesOf, List.map_cons]
  simp

theorem lines_encode_append {line : String} (h : '\n' ∉ line.toList) (rest : List UInt8) :
    lines (encode (line ++ "\n") ++ rest) =
      some (.ofList (withoutReturn line.toList)) :: lines rest := by
  have hl : lineFeed ∉ line.toList.flatMap String.utf8EncodeChar :=
    fun hm => h ((lineFeed_mem_encode_iff line).1 hm)
  have he : encode (line ++ "\n") ++ rest =
      line.toList.flatMap String.utf8EncodeChar ++ lineFeed :: rest := by
    rw [encode_append, List.append_assoc]
    rfl
  rw [he, lines_append_lineFeed hl, dropReturn_flatMap, ← encode_ofList, decode_encode]

theorem length_lines_le_of_not_mem {input : List UInt8} (h : lineFeed ∉ input) :
    (lines input).length ≤ 1 := by
  have hs : input.splitOn lineFeed = [input] := by
    have ha := splitOn_append_of_not_mem h []
    rw [List.append_nil] at ha
    rw [ha, List.splitOn_nil, List.modifyHead_cons, List.append_nil]
  rw [lines, hs, List.length_map, linesOf]
  split <;> simp

def leading : Nat → List UInt8 → List UInt8
  | 0, _ => []
  | _ + 1, [] => []
  | n + 1, b :: rest => b :: leading (if b = lineFeed then n else n + 1) rest

theorem leading_append {line : List UInt8} (h : lineFeed ∉ line) (n : Nat) (rest : List UInt8) :
    leading (n + 1) (line ++ rest) = line ++ leading (n + 1) rest := by
  induction line with
  | nil => rfl
  | cons b line ih =>
    simp only [List.mem_cons, not_or] at h
    rw [List.cons_append, leading, if_neg (Ne.symm h.1), ih h.2, List.cons_append]

theorem lines_leading (n : Nat) (input : List UInt8) :
    lines (leading n input) = (lines input).take n := by
  induction n generalizing input with
  | zero => rw [leading]; rfl
  | succ n ih =>
    by_cases hm : lineFeed ∈ input
    · obtain ⟨line, rest, rfl, hl⟩ := List.eq_append_cons_of_mem hm
      rw [leading_append hl, leading, if_pos rfl, lines_append_lineFeed hl,
        lines_append_lineFeed hl, ih, List.take_succ_cons]
    · have hn : leading (n + 1) input = input := by
        have ha := leading_append hm n []
        rwa [List.append_nil, leading, List.append_nil] at ha
      have hl := length_lines_le_of_not_mem hm
      rw [hn, List.take_of_length_le (by omega)]

example : leading 2 (encode "a\r\n\nb\r") = encode "a\r\n\n" := by decide +kernel

end Shell

end SqlDispatch
