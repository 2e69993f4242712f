import SqlDispatch.Proofs.Streaming.Run
import SqlDispatch.Proofs.Target
import SqlDispatch.Proofs.Text.Numeral
import SqlDispatch.Proofs.Token.Step

set_option autoImplicit false

/-!
Configurations and the variables that hold them. Whatever the variables, what is read of them is
well-formed (`wellFormed_read`); and a well-formed configuration is read from the variables that
hold it, without complaint and with any blanks around their texts (`read_of_heldBy`).
-/

namespace SqlDispatch

open Text Grammar

namespace Text

def IsPadded (text padded : String) : Prop :=
  ∃ front back, isVoid front = true ∧ isVoid back = true ∧ padded = front ++ text ++ back

theorem isPadded_self (text : String) : IsPadded text text :=
  ⟨"", "", rfl, rfl, by simp⟩

theorem IsPadded.strip_eq {text padded : String} (h : IsPadded text padded) :
    strip padded.toList = strip text.toList := by
  obtain ⟨front, back, hf, hb, rfl⟩ := h
  rw [String.toList_append, String.toList_append, List.append_assoc]
  exact strip_blank_around (List.all_eq_true.1 hf) (List.all_eq_true.1 hb) text.toList

theorem Denotes.isBlank {cs : List Char} {value : Int} (h : Denotes cs value) :
    ∀ c ∈ cs, isBlank c = false := by
  have hd {digits : List Char} (h : AreDigits digits) : ∀ c ∈ digits, Text.isBlank c = false :=
    fun c hc => Start.isBlank_of_isDigit (h c hc)
  cases h with
  | unsigned _ h => exact hd h
  | plus _ h => exact List.forall_mem_cons.2 ⟨by decide, hd h⟩
  | minus _ h => exact List.forall_mem_cons.2 ⟨by decide, hd h⟩

theorem Denotes.trim_eq {text : String} {value : Int} (h : Denotes text.toList value) :
    trim text = text := by
  rw [trim, strip_eq_self_of_forall h.isBlank, String.ofList_toList]

theorem integer_trim_of_isPadded {text padded : String} {value : Int}
    (hp : IsPadded text padded) (h : Denotes text.toList value) :
    integer (trim padded) = some value := by
  rw [trim, hp.strip_eq, ← trim, h.trim_eq]
  exact integer_eq_some_iff.2 h

end Text

namespace Target

theorem read_of_isPadded {text padded : String} (h : IsPadded text padded) :
    read padded = read text := by
  simp only [read, h.strip_eq]

end Target

theorem truthValue_of_isPadded {text padded : String} (h : IsPadded text padded) :
    truthValue padded = truthValue text := by
  unfold truthValue trim
  rw [h.strip_eq]

theorem truthValue_digit (value : Bool) : truthValue (Config.digit value) = some value := by
  cases value <;> decide +kernel

namespace Config

/-- The configurations that variables can hold: the target reads back from its text, a timeout is a
whole number of seconds, and streaming mode is off with every quantity in its range. -/
structure WellFormed (config : Config) : Prop where
  target : Target.read config.target.display = .ok config.target
  timeout : ∀ span ∈ config.timeout, ∃ seconds : Nat,
    1 ≤ seconds ∧ (seconds : Int) ≤ greatestTimeout ∧ span = .ofSeconds seconds
  disabled : config.streaming.enabled = false
  inRange : config.streaming.InRange

/-- Every variable has the text of its value, with blanks around it or not. -/
def HeldBy (config : Config) (lookup : Lookup) : Prop :=
  ∀ entry ∈ config.toVariables, ∃ text, lookup entry.1 = some text ∧ IsPadded entry.2 text

variable {config : Config} {lookup : Lookup} {key text : String} {least greatest value : Int}

theorem read_display_getD_readTarget (lookup : Lookup) :
    let target := (readTarget lookup).value.getD standard.target
    Target.read target.display = .ok target := by
  unfold readTarget
  split
  · exact Target.read_display_of_wellFormed trivial
  · split
    · rename_i target hr
      exact Target.read_display_of_wellFormed (Target.wellFormed_of_read hr)
    · exact Target.read_display_of_wellFormed trivial

theorem wellFormed_read (lookup : Lookup) : (read lookup).1.WellFormed where
  target := read_display_getD_readTarget lookup
  timeout := by
    intro span h
    simp only [read] at h
    cases hv : (readQuantity lookup timeoutVariable 0 greatestTimeout).value with
    | none => simp [hv, standard] at h
    | some seconds =>
      obtain ⟨hl, hu⟩ := bounds_of_readQuantity hv
      simp only [hv, Option.elim_some, Span.limit, Option.mem_def] at h
      split at h
      · cases h
      · obtain rfl := Option.some.inj h
        exact ⟨seconds.toNat, by omega, by omega, rfl⟩
  disabled := rfl
  inRange := inRange_read lookup

theorem readQuantity_eq_some {padded : String} (hl : lookup key = some padded)
    (hp : IsPadded text padded) (hd : Denotes text.toList value)
    (hr : least ≤ value ∧ value ≤ greatest) :
    readQuantity lookup key least greatest = ⟨some value, []⟩ := by
  simp [readQuantity, hl, integer_trim_of_isPadded hp hd, Option.filter, hr]

theorem readQuantity_eq_none {padded : String} (hl : lookup key = some padded)
    (hp : IsPadded text padded) (hd : Denotes text.toList value)
    (hr : ¬ (least ≤ value ∧ value ≤ greatest)) :
    readQuantity lookup key least greatest =
      ⟨none, [.variableIgnored key padded least greatest]⟩ := by
  simp [readQuantity, hl, integer_trim_of_isPadded hp hd, Option.filter, hr]

theorem readQuantity_of_held
    (h : ∃ padded, lookup key = some padded ∧ IsPadded (decimal value) padded)
    (hr : least ≤ value ∧ value ≤ greatest) :
    readQuantity lookup key least greatest = ⟨some value, []⟩ := by
  obtain ⟨padded, hl, hp⟩ := h
  exact readQuantity_eq_some hl hp (integer_eq_some_iff.1 (integer_decimal value)) hr

theorem readFlag_of_held {value : Bool}
    (h : ∃ padded, lookup key = some padded ∧ IsPadded (digit value) padded) :
    readFlag lookup key = some value := by
  obtain ⟨padded, hl, hp⟩ := h
  rw [readFlag, hl, Option.bind_some, truthValue_of_isPadded hp, truthValue_digit]

theorem readTarget_of_held {target : Target}
    (h : ∃ padded, lookup targetVariable = some padded ∧ IsPadded target.display padded)
    (hr : Target.read target.display = .ok target) :
    readTarget lookup = ⟨some target, []⟩ := by
  obtain ⟨padded, hl, hp⟩ := h
  simp only [readTarget, hl, Target.read_of_isPadded hp, hr]

theorem WellFormed.limit_seconds (h : config.WellFormed) :
    (((config.timeout.map Span.seconds).getD 0 : Nat) : Int) ≤ greatestTimeout ∧
      Span.limit ((config.timeout.map Span.seconds).getD 0) = config.timeout := by
  cases ht : config.timeout with
  | none => exact ⟨by decide, rfl⟩
  | some span =>
    obtain ⟨seconds, hl, hu, rfl⟩ := h.timeout span ht
    rw [Option.map_some, Option.getD_some, Span.seconds_ofSeconds, Span.limit,
      if_neg (Nat.pos_iff_ne_zero.1 hl)]
    exact ⟨hu, rfl⟩

theorem read_of_heldBy (hw : config.WellFormed) (h : config.HeldBy lookup) :
    read lookup = (config, []) := by
  obtain ⟨hs, hlimit⟩ := hw.limit_seconds
  obtain ⟨hb, hu, hp, hf⟩ := hw.inRange
  have hd := hw.disabled
  have ht := hw.target
  simp only [HeldBy, toVariables, List.forall_mem_cons] at h
  obtain ⟨h₁, h₂, h₃, h₄, h₅, h₆, h₇, h₈, _⟩ := h
  have hseconds := readQuantity_of_held h₂ ⟨Int.natCast_nonneg _, hs⟩
  have hbatch := readQuantity_of_held h₃ hb
  have hbuffer := readQuantity_of_held h₄ hu
  have hparallel := readQuantity_of_held h₅ hp
  have hflush := readQuantity_of_held h₇ hf
  simp only [read, readTarget_of_held h₁ ht, hseconds, hbatch, hbuffer, hparallel, hflush,
    readFlag_of_held h₆, readFlag_of_held h₈, Option.getD_some, Option.elim_some, Int.toNat_natCast,
    hlimit, List.append_nil]
  rw [← hd]

theorem heldBy_toVariables (config : Config) :
    config.HeldBy fun name => config.toVariables.lookup name := by
  intro entry he
  refine ⟨entry.2, ?_, isPadded_self _⟩
  simp only [toVariables, List.mem_cons, List.not_mem_nil, or_false] at he
  rcases he with rfl | rfl | rfl | rfl | rfl | rfl | rfl | rfl <;> rfl

/-- What is read of any variables is well-formed, and every well-formed configuration is read
without complaint from the texts of its values, also with blanks around some of them. -/
theorem read_covers_wellFormed :
    (∀ lookup, (read lookup).1.WellFormed) ∧
    ∀ config : Config, config.WellFormed →
      read (fun name => config.toVariables.lookup name) = (config, []) ∧
      ∀ lookup, config.HeldBy lookup → read lookup = (config, []) :=
  ⟨wellFormed_read, fun config hw =>
    ⟨read_of_heldBy hw config.heldBy_toVariables, fun _ h => read_of_heldBy hw h⟩⟩

theorem read_covers_wellFormed_spaced :
    let config : Config := ⟨.dataNodes "orders", some (.ofSeconds 30),
      { Streaming.Settings.standard with flushFrequency := 250, ordered := true }⟩
    let lookup : Lookup := fun name =>
      if name = targetVariable then some " data-nodes:orders\u2003"
      else config.toVariables.lookup name
    config.WellFormed ∧ config.HeldBy lookup ∧ read lookup = (config, []) := by
  intro config lookup
  have hw : config.WellFormed :=
    { target := by decide +kernel
      timeout := by
        intro span h
        exact ⟨30, by decide, by decide, (Option.some.inj h).symm⟩
      disabled := rfl
      inRange := by unfold Streaming.Settings.InRange; decide }
  have hh : config.HeldBy lookup := by
    intro entry he
    simp only [toVariables, List.mem_cons, List.not_mem_nil, or_false] at he
    rcases he with rfl | rfl | rfl | rfl | rfl | rfl | rfl | rfl
    · exact ⟨_, rfl, " ", "\u2003", by decide, by decide, by decide +kernel⟩
    all_goals exact ⟨_, rfl, isPadded_self _⟩
  exact ⟨hw, hh, (read_covers_wellFormed.2 config hw).2 lookup hh⟩

end Config

end SqlDispatch
