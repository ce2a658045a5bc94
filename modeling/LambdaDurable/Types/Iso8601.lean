import LambdaDurable.Types.Duration
import Mathlib.Data.List.Basic

/-! # Durations as ISO 8601 text -/

namespace LambdaDurable

inductive ParseDurationError where
  | invalidFormat (msg : String)
  deriving DecidableEq, Repr

/-- `str::parse::<u32>` on text that holds decimal digits only. -/
def parseU32 (digits : List Char) : Option UInt32 :=
  if h : Nat.ofDigitChars 10 digits 0 < UInt32.size then some (UInt32.ofNatLT _ h) else none

namespace Duration

/-- The variables of the loop of `parse_iso8601`. -/
structure Scan where
  duration : Duration := zero
  numBuf : List Char := []
  deriving DecidableEq, Repr

def Scan.unit (duration : Duration) (num : UInt32) : Char → Except ParseDurationError Scan
  | 'D' => .ok { duration := { duration with days := num } }
  | 'H' => .ok { duration := { duration with hours := num } }
  | 'M' => .ok { duration := { duration with minutes := num } }
  | 'S' => .ok { duration := { duration with seconds := num } }
  | c => .error (.invalidFormat s!"Unknown unit: {c}")

def Scan.read (scan : Scan) (c : Char) : Except ParseDurationError Scan :=
  if c.isDigit then .ok { scan with numBuf := scan.numBuf ++ [c] }
  else if scan.numBuf.isEmpty then .error (.invalidFormat "Expected number before unit")
  else match parseU32 scan.numBuf with
    | none => .error (.invalidFormat "Invalid number")
    | some num => Scan.unit scan.duration num c

/-- What is left in the buffer when the characters run out is not looked at. -/
def parseIso8601 (s : String) : Except ParseDurationError Duration :=
  if ['P', 'T'].isPrefixOf s.toList then
    ((s.toList.drop 2).foldlM Scan.read {}).map (·.duration)
  else .error (.invalidFormat "Duration must start with 'PT'")

def toIso8601 (d : Duration) : String :=
  let parts := if d.days > 0 then [s!"{d.days}D"] else []
  let parts := if d.hours > 0 then parts ++ [s!"{d.hours}H"] else parts
  let parts := if d.minutes > 0 then parts ++ [s!"{d.minutes}M"] else parts
  let parts := if d.seconds > 0 ∨ parts.isEmpty then parts ++ [s!"{d.seconds}S"] else parts
  "PT" ++ String.join parts

end Duration

/-! ## The grammar -/

inductive DurationUnit where
  | day | hour | minute | second
  deriving DecidableEq, Repr

namespace DurationUnit

def letter : DurationUnit → Char
  | day => 'D'
  | hour => 'H'
  | minute => 'M'
  | second => 'S'

/-- The field of a duration that a unit names. -/
def set (unit : DurationUnit) (num : UInt32) (d : Duration) : Duration :=
  match unit with
  | day => { d with days := num }
  | hour => { d with hours := num }
  | minute => { d with minutes := num }
  | second => { d with seconds := num }

def get : DurationUnit → Duration → UInt32
  | day, d => d.days
  | hour, d => d.hours
  | minute, d => d.minutes
  | second, d => d.seconds

theorem get_set (unit unit' : DurationUnit) (num : UInt32) (d : Duration) :
    unit.get (unit'.set num d) = if unit' = unit then num else unit.get d := by
  cases unit <;> cases unit' <;> rfl

theorem ext_get {d d' : Duration} (h : ∀ unit : DurationUnit, unit.get d = unit.get d') :
    d = d' := by
  obtain ⟨days, hours, minutes, seconds⟩ := d
  obtain ⟨days', hours', minutes', seconds'⟩ := d'
  have hday := h day
  have hhour := h hour
  have hminute := h minute
  have hsecond := h second
  simp only [get] at hday hhour hminute hsecond
  rw [hday, hhour, hminute, hsecond]

theorem letter_isDigit (unit : DurationUnit) : unit.letter.isDigit = false := by
  cases unit <;> decide

theorem scan_unit (unit : DurationUnit) (d : Duration) (num : UInt32) :
    Duration.Scan.unit d num unit.letter = .ok { duration := unit.set num d } := by
  cases unit <;> rfl

theorem of_scan_unit {d : Duration} {num : UInt32} {c : Char} {out : Duration.Scan}
    (h : Duration.Scan.unit d num c = .ok out) :
    ∃ unit : DurationUnit, c = unit.letter ∧ out = { duration := unit.set num d } := by
  unfold Duration.Scan.unit at h
  split at h
  · exact ⟨day, rfl, (Except.ok.inj h).symm⟩
  · exact ⟨hour, rfl, (Except.ok.inj h).symm⟩
  · exact ⟨minute, rfl, (Except.ok.inj h).symm⟩
  · exact ⟨second, rfl, (Except.ok.inj h).symm⟩
  · cases h

end DurationUnit

/-- One or more digits, no more than a `u32` holds, and the unit they count. -/
structure DurationComponent where
  digits : List Char
  unit : DurationUnit
  digits_ne_nil : digits ≠ []
  isDigit_of_mem : ∀ c ∈ digits, c.isDigit
  fits : Nat.ofDigitChars 10 digits 0 < UInt32.size

namespace DurationComponent

def text (p : DurationComponent) : List Char := p.digits ++ [p.unit.letter]

def value (p : DurationComponent) : UInt32 := UInt32.ofNatLT _ p.fits

def store (d : Duration) (p : DurationComponent) : Duration := p.unit.set p.value d

theorem parseU32_digits (p : DurationComponent) : parseU32 p.digits = some p.value :=
  dif_pos p.fits

end DurationComponent

namespace Duration

open DurationComponent

theorem read_digit {scan : Scan} {c : Char} (h : c.isDigit) :
    scan.read c = .ok { scan with numBuf := scan.numBuf ++ [c] } := if_pos h

theorem read_letter (d : Duration) (p : DurationComponent) :
    Scan.read { duration := d, numBuf := p.digits } p.unit.letter =
      .ok { duration := store d p } := by
  have hempty : p.digits.isEmpty = false := List.isEmpty_eq_false_iff.mpr p.digits_ne_nil
  simp only [Scan.read, p.unit.letter_isDigit, hempty, parseU32_digits]
  exact p.unit.scan_unit d p.value

/-- A character that is not a digit ends a component, or the scan fails. -/
theorem of_read_letter {scan out : Scan} {c : Char} (hbuf : ∀ c ∈ scan.numBuf, c.isDigit)
    (hc : c.isDigit = false) (h : scan.read c = .ok out) :
    ∃ p : DurationComponent, scan.numBuf = p.digits ∧ c = p.unit.letter ∧
      out = { duration := store scan.duration p } := by
  rw [Scan.read, if_neg (by simp [hc])] at h
  split at h
  · cases h
  · rename_i hempty
    split at h <;> rename_i hnum
    · cases h
    · obtain ⟨hfits, hnum⟩ := Option.dite_none_right_eq_some.mp hnum
      obtain rfl := Option.some.inj hnum
      obtain ⟨unit, hletter, hout⟩ := DurationUnit.of_scan_unit h
      exact ⟨⟨scan.numBuf, unit, by simpa using hempty, hbuf, hfits⟩, rfl, hletter, hout⟩

theorem scan_digits {digits : List Char} (h : ∀ c ∈ digits, c.isDigit) (scan : Scan) :
    digits.foldlM Scan.read scan = .ok { scan with numBuf := scan.numBuf ++ digits } := by
  induction digits generalizing scan with
  | nil => simp [pure, Except.pure]
  | cons c digits ih =>
    obtain ⟨hc, hdigits⟩ := List.forall_mem_cons.mp h
    rw [List.foldlM_cons, read_digit hc]
    exact (ih hdigits _).trans (by simp)

theorem scan_text (d : Duration) (p : DurationComponent) :
    p.text.foldlM Scan.read { duration := d } = .ok { duration := store d p } := by
  rw [text, List.foldlM_append, scan_digits p.isDigit_of_mem, List.nil_append]
  change (Scan.read { duration := d, numBuf := p.digits } p.unit.letter >>= pure) = _
  rw [read_letter]
  rfl

/-- The scan of whole components followed by digits stores each component in turn and leaves
the digits in the buffer. -/
theorem scan_components (components : List DurationComponent) {digits : List Char}
    (h : ∀ c ∈ digits, c.isDigit) (d : Duration) :
    (components.flatMap text ++ digits).foldlM Scan.read { duration := d } =
      .ok { duration := components.foldl store d, numBuf := digits } := by
  induction components generalizing d with
  | nil => exact scan_digits h _
  | cons p components ih =>
    rw [List.flatMap_cons, List.append_assoc, List.foldlM_append, scan_text]
    exact ih (store d p)

/-- What a scan that succeeds has read: whole components, then digits. -/
theorem components_of_scan {cs : List Char} {scan out : Scan}
    (hbuf : ∀ c ∈ scan.numBuf, c.isDigit) (h : cs.foldlM Scan.read scan = .ok out) :
    ∃ components : List DurationComponent,
      scan.numBuf ++ cs = components.flatMap text ++ out.numBuf ∧
        (∀ c ∈ out.numBuf, c.isDigit) ∧ out.duration = components.foldl store scan.duration := by
  induction cs generalizing scan with
  | nil =>
    obtain rfl := Except.ok.inj h
    exact ⟨[], by simp, hbuf, rfl⟩
  | cons c cs ih =>
    rw [List.foldlM_cons] at h
    by_cases hc : c.isDigit
    · rw [read_digit hc] at h
      have hbuf' : ∀ c' ∈ scan.numBuf ++ [c], c'.isDigit := by
        simpa [or_imp, forall_and, hc] using hbuf
      obtain ⟨components, htext, hrest⟩ := ih hbuf' h
      exact ⟨components, by simpa using htext, hrest⟩
    · cases hread : scan.read c with
      | error e =>
        rw [hread] at h
        cases h
      | ok next =>
        rw [hread] at h
        obtain ⟨p, hdigits, rfl, rfl⟩ := of_read_letter hbuf (by simpa using hc) hread
        obtain ⟨components, htext, hrest, hduration⟩ := ih (by simp) h
        refine ⟨p :: components, ?_, hrest, hduration⟩
        rw [List.nil_append] at htext
        rw [List.flatMap_cons, List.append_assoc, ← htext, hdigits, text]
        simp

/-- Whole components after `PT`, and nothing after the last one; a unit that is repeated counts
the last time. -/
def Denotes (s : String) (d : Duration) : Prop :=
  ∃ components : List DurationComponent,
    s.toList = ['P', 'T'] ++ components.flatMap text ∧
      ∀ unit : DurationUnit, unit.get d =
        ((components.filter (·.unit = unit)).getLast?.map value).getD 0

/-- Digits that no unit follows end the text. -/
def EndsInDigits (s : String) : Prop :=
  ∃ (components : List DurationComponent) (digits : List Char), digits ≠ [] ∧
    (∀ c ∈ digits, c.isDigit) ∧ s.toList = ['P', 'T'] ++ components.flatMap text ++ digits

theorem get_foldl_store (components : List DurationComponent) (d : Duration)
    (unit : DurationUnit) : unit.get (components.foldl store d) =
      ((components.filter (·.unit = unit)).getLast?.map value).getD (unit.get d) := by
  induction components using List.reverseRecOn with
  | nil => rfl
  | append_singleton components p ih =>
    rw [List.foldl_append, List.foldl_cons, List.foldl_nil, store, DurationUnit.get_set,
      List.filter_append]
    by_cases hunit : p.unit = unit
    · simp [hunit]
    · simp [hunit, ih]

theorem denotes_iff {s : String} {d : Duration} :
    Denotes s d ↔ ∃ components : List DurationComponent,
      s.toList = ['P', 'T'] ++ components.flatMap text ∧ d = components.foldl store zero := by
  have hzero : ∀ unit : DurationUnit, unit.get zero = 0 := by
    intro unit
    cases unit <;> rfl
  constructor
  · rintro ⟨components, htext, hfields⟩
    refine ⟨components, htext, DurationUnit.ext_get fun unit => ?_⟩
    rw [hfields, get_foldl_store, hzero]
  · rintro ⟨components, htext, rfl⟩
    refine ⟨components, htext, fun unit => ?_⟩
    rw [get_foldl_store, hzero]

/-- Trailing digits are dropped. -/
theorem parseIso8601_of_text {s : String} (components : List DurationComponent)
    {digits : List Char} (hdigits : ∀ c ∈ digits, c.isDigit)
    (h : s.toList = ['P', 'T'] ++ components.flatMap text ++ digits) :
    parseIso8601 s = .ok (components.foldl store zero) := by
  rw [parseIso8601, h, List.append_assoc, if_pos (by simp)]
  change Except.map _ ((components.flatMap text ++ digits).foldlM Scan.read {}) = _
  rw [scan_components components hdigits]
  rfl

theorem text_of_parseIso8601 {s : String} {d : Duration} (h : parseIso8601 s = .ok d) :
    ∃ (components : List DurationComponent) (digits : List Char), (∀ c ∈ digits, c.isDigit) ∧
      s.toList = ['P', 'T'] ++ components.flatMap text ++ digits ∧
      d = components.foldl store zero := by
  unfold parseIso8601 at h
  split at h
  · rename_i hprefix
    obtain ⟨rest, hrest⟩ := List.isPrefixOf_iff_prefix.mp hprefix
    rw [← hrest] at h ⊢
    change Except.map _ (rest.foldlM Scan.read {}) = _ at h
    cases hscan : rest.foldlM Scan.read {} with
    | error e =>
      rw [hscan] at h
      cases h
    | ok out =>
      rw [hscan] at h
      obtain rfl := Except.ok.inj h
      obtain ⟨components, htext, hdigits, hduration⟩ := components_of_scan (by simp) hscan
      rw [List.nil_append] at htext
      exact ⟨components, out.numBuf, hdigits, by rw [htext, List.append_assoc], hduration⟩
  · cases h

theorem not_endsInDigits_of_text {s : String} {components : List DurationComponent}
    (h : s.toList = ['P', 'T'] ++ components.flatMap text) : ¬ EndsInDigits s := by
  rintro ⟨components', digits, hne, hdigits, htext⟩
  obtain ⟨digits, c, rfl⟩ := (List.eq_nil_or_concat digits).resolve_left hne
  have hc := hdigits c (by simp)
  rw [h] at htext
  obtain rfl | ⟨components, p, rfl⟩ := List.eq_nil_or_concat components
  · have hlength := congrArg List.length htext
    simp at hlength
  · simp only [List.concat_eq_append, List.flatMap_append, List.flatMap_singleton, text,
      ← List.append_assoc] at htext
    obtain rfl : p.unit.letter = c := by simpa using List.append_inj_right' htext rfl
    simp [p.unit.letter_isDigit] at hc

/-- A text is accepted exactly when it is in the grammar, and read as the grammar says, unless
digits that no unit follows end it. -/
theorem parseIso8601_eq_ok_iff_denotes_iff (s : String) :
    (∀ d, parseIso8601 s = .ok d ↔ Denotes s d) ↔ ¬ EndsInDigits s := by
  constructor
  · rintro h ⟨components, digits, hne, hdigits, htext⟩
    obtain ⟨components', htext', -⟩ :=
      denotes_iff.mp ((h _).mp (parseIso8601_of_text components hdigits htext))
    exact not_endsInDigits_of_text htext' ⟨components, digits, hne, hdigits, htext⟩
  · intro hends d
    constructor
    · intro h
      obtain ⟨components, digits, hdigits, htext, rfl⟩ := text_of_parseIso8601 h
      by_cases hnil : digits = []
      · exact denotes_iff.mpr ⟨components, by simpa [hnil] using htext, rfl⟩
      · exact absurd ⟨components, digits, hnil, hdigits, htext⟩ hends
    · intro h
      obtain ⟨components, htext, rfl⟩ := denotes_iff.mp h
      have hnone : ∀ c ∈ ([] : List Char), c.isDigit := by simp
      exact parseIso8601_of_text components hnone (by simpa using htext)

/-- Five minutes, and digits whose unit is missing. -/
theorem parseIso8601_drops_digits : parseIso8601 "PT5M30" = .ok { minutes := 5 } ∧
    ¬ ∀ d, parseIso8601 "PT5M30" = .ok d ↔ Denotes "PT5M30" d := by
  have hparse : parseIso8601 "PT5M30" = .ok { minutes := 5 } := by decide +kernel
  let five : DurationComponent := ⟨['5'], .minute, by simp, by simp, by decide⟩
  have htext : "PT5M30".toList = ['P', 'T'] ++ [five].flatMap text ++ ['3', '0'] := by
    decide +kernel
  refine ⟨hparse, fun h => ?_⟩
  obtain ⟨components, hcomponents, -⟩ := denotes_iff.mp ((h _).mp hparse)
  exact not_endsInDigits_of_text hcomponents ⟨[five], ['3', '0'], by simp, by simp, htext⟩

/-! ## Reading a printed duration -/

/-- A count as it is printed, with its unit. -/
def numeral (unit : DurationUnit) (num : UInt32) : DurationComponent where
  digits := Nat.toDigits 10 num.toNat
  unit := unit
  digits_ne_nil := Nat.toDigits_ne_nil
  isDigit_of_mem := fun _ h => Nat.isDigit_of_mem_toDigits (by decide) (by decide) h
  fits := by
    rw [Nat.ofDigitChars_ten_toDigits]
    exact num.toNat_lt

theorem store_numeral (d : Duration) (unit : DurationUnit) (num : UInt32) :
    store d (numeral unit num) = unit.set num d := by
  have hvalue : (numeral unit num).value = num := by
    apply UInt32.toNat_inj.mp
    exact Nat.ofDigitChars_ten_toDigits
  rw [store, hvalue]
  rfl

theorem toList_numeral (unit : DurationUnit) (num : UInt32) (letter : String)
    (h : letter.toList = [unit.letter]) :
    (toString num ++ letter).toList = (numeral unit num).text := by
  rw [String.toList_append, h]
  exact congrArg (· ++ [unit.letter]) Nat.toList_repr

/-- The components `to_iso8601` prints. -/
def printed (d : Duration) : List DurationComponent :=
  let parts := if d.days > 0 then [numeral .day d.days] else []
  let parts := if d.hours > 0 then parts ++ [numeral .hour d.hours] else parts
  let parts := if d.minutes > 0 then parts ++ [numeral .minute d.minutes] else parts
  if d.seconds > 0 ∨ parts.isEmpty then parts ++ [numeral .second d.seconds] else parts

theorem renders_append {parts : List String} {components : List DurationComponent} {part : String}
    {p : DurationComponent} (c : Prop) [Decidable c]
    (h : parts.map String.toList = components.map text) (hpart : part.toList = p.text) :
    (if c then parts ++ [part] else parts).map String.toList =
      (if c then components ++ [p] else components).map text := by
  split
  · rw [List.map_append, List.map_append, h, List.map_singleton, List.map_singleton, hpart]
  · exact h

theorem renders_last {parts : List String} {components : List DurationComponent} {part : String}
    {p : DurationComponent} (c : Prop) [Decidable c]
    (h : parts.map String.toList = components.map text) (hpart : part.toList = p.text) :
    (if c ∨ parts.isEmpty then parts ++ [part] else parts).map String.toList =
      (if c ∨ components.isEmpty then components ++ [p] else components).map text := by
  have hempty := congrArg List.isEmpty h
  rw [List.isEmpty_map, List.isEmpty_map] at hempty
  rw [hempty]
  exact renders_append _ h hpart

theorem toList_toIso8601 (d : Duration) :
    d.toIso8601.toList = ['P', 'T'] ++ d.printed.flatMap text := by
  have hnil : ([] : List String).map String.toList = ([] : List DurationComponent).map text := rfl
  have hdays := renders_append (d.days > 0) hnil (toList_numeral .day d.days "D" rfl)
  have hhours := renders_append (d.hours > 0) hdays (toList_numeral .hour d.hours "H" rfl)
  have hminutes := renders_append (d.minutes > 0) hhours
    (toList_numeral .minute d.minutes "M" rfl)
  have hseconds := renders_last (d.seconds > 0) hminutes
    (toList_numeral .second d.seconds "S" rfl)
  simp only [toIso8601, printed, String.toList_append, String.toList_join, List.flatMap_def]
  exact congrArg (['P', 'T'] ++ List.flatten ·) hseconds

theorem eq_zero_of_not_pos {n : UInt32} (h : ¬ n > 0) : n = 0 := by
  apply UInt32.toNat_inj.mp
  have hle := mt UInt32.lt_iff_toNat_lt.mpr h
  simpa using hle

theorem foldl_store_printed (d : Duration) : d.printed.foldl store zero = d := by
  obtain ⟨days, hours, minutes, seconds⟩ := d
  simp only [printed]
  split_ifs <;> simp_all [store_numeral, DurationUnit.set, zero, eq_zero_of_not_pos]

theorem parseIso8601_toIso8601 (d : Duration) : parseIso8601 d.toIso8601 = .ok d := by
  have htext : d.toIso8601.toList = ['P', 'T'] ++ d.printed.flatMap text ++ [] := by
    rw [toList_toIso8601, List.append_nil]
  rw [parseIso8601_of_text d.printed (by simp) htext, foldl_store_printed]

end Duration

end LambdaDurable
