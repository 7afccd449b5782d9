import SquidDB.Lib.LastWrite
import SquidDB.Utils.Configuration

/-!
# Configurations as folds of their lines

A line asks for a setting when it has a colon with a known key in front of it;
the last such line of a key should decide what the setting holds.  `read` goes
another way in four places.  A line without a colon is only warned about and
then taken for a key and its value; a number is cut down to the width of its
field; `stoi` stops at the first character that belongs to no number; and a
position that does not fit into the `int` of `trim` loses the line or the
value behind it.
-/

namespace SquidDB.Utils.Configuration

open Checked LastWrite ConfigurationKey SquidDB.Utils.Logger

/-! ## Settings and entries -/

/-- What a setting holds, or a line asks for. -/
inductive SettingValue where
  | text (text : Text)
  | level (level : LogLevel)
  | mode (mode : LogMode)
  | number (number : ℤ)
  deriving DecidableEq

/-- The setting under a key; there is none under an unknown key. -/
def get (configuration : Configuration) : ConfigurationKey → SettingValue
  | .logFilePath => .text configuration.logFilePath
  | .logLevel => .level configuration.logLevel
  | .logMode => .mode configuration.logMode
  | .maxMemoryMB => .number configuration.maxMemoryMB.toNat
  | .maxNodeHeight => .number configuration.maxNodeHeight.toNat
  | .dataPath => .text configuration.dataPath
  | .maxFileSizeMB => .number configuration.maxFileSizeMB.toNat
  | .unknown => .text []

/-- What is asked for by a value; a number must be written as one. -/
def meaning (key : ConfigurationKey) (value : Text) : Option SettingValue :=
  match key with
  | .logFilePath | .dataPath => some (.text value)
  | .logLevel => some (.level (.parseLogLevel value))
  | .logMode => some (.mode (.parseLogMode value))
  | .maxMemoryMB | .maxNodeHeight | .maxFileSizeMB =>
      (Text.literal value).map .number
  | .unknown => none

/-- A line `key: value`. -/
structure Entry where
  key : ConfigurationKey
  /-- All that stands behind the colon. -/
  rest : Text
  /-- The length of the white space that the line begins with. -/
  indent : ℕ

/-- The value, without the white space around it. -/
def Entry.value (entry : Entry) : Text := Text.trimmed entry.rest

/-- The entry in a line: not in a blank line or a comment, and not without a
colon or under an unknown key. -/
def entryOf (line : Text) : Option Entry :=
  let text := Text.trimmed line
  if text = [] ∨ text.head? = some '#' then none
  else
    match text.idxOf? ':' with
    | none => none
    | some colon =>
        let key := parseConfigurationKey (Text.trimmed (text.take colon))
        if key = .unknown then none
        else some ⟨key, text.drop (colon + 1), Text.indent line⟩

def entries (lines : List Text) : List Entry := lines.filterMap entryOf

/-- The settings are those of the last entries, and a line without an entry
changes none. -/
structure FoldsLines (before after : Configuration) (lines : List Text) :
    Prop where
  last_entry : ∀ key, match last Entry.key key (entries lines) with
    | some entry => meaning key entry.value = some (after.get key)
    | none => after.get key = before.get key
  no_entry : ∀ line ∈ lines, entryOf line = none →
    ∀ configuration : Configuration,
      configuration.readLine line = .ok (.returned () configuration)

/-! ## What the code makes of an entry -/

/-- A line that consists of nothing but a known key. -/
def Stray (line : Text) : Prop :=
  Text.indent line < 2 ^ 31 ∧ ':' ∉ Text.trimmed line ∧
    parseConfigurationKey (Text.trimmed line) ≠ .unknown

/-- The line of the entry is not lost. -/
def Entry.Heard (entry : Entry) : Prop := entry.indent < 2 ^ 31

/-- A number of a width is written. -/
def Entry.Numbered (entry : Entry) (width : ℕ) : Prop :=
  ∃ number : ℕ, Text.literal entry.value = some (number : ℤ) ∧
    number < 2 ^ width

/-- The field under the key can hold what the entry asks for, and the text is
not changed on its way there. -/
def Entry.Fits (entry : Entry) : Prop :=
  match entry.key with
  | .logFilePath | .dataPath =>
      Text.Blank entry.rest ∨ Text.indent entry.rest < 2 ^ 31
  | .logLevel =>
      Text.indent entry.rest < 2 ^ 31 ∨
        LogLevel.parseLogLevel entry.value = .unknown
  | .logMode =>
      Text.indent entry.rest < 2 ^ 31 ∨
        LogMode.parseLogMode entry.value = .unknown
  | .maxMemoryMB => entry.Numbered 32
  | .maxNodeHeight => entry.Numbered 8
  | .maxFileSizeMB => entry.Numbered 16
  | .unknown => True

instance : DecidablePred Stray :=
  fun line => inferInstanceAs (Decidable (Text.indent line < 2 ^ 31 ∧
    ':' ∉ Text.trimmed line ∧
      parseConfigurationKey (Text.trimmed line) ≠ .unknown))

instance : DecidablePred Entry.Heard :=
  fun entry => inferInstanceAs (Decidable (entry.indent < 2 ^ 31))

/-- The assignment of an entry. -/
def store (configuration : Configuration) (entry : Entry) : Configuration :=
  match setting entry.key (StringUtils.kept entry.rest) with
  | .error _ => configuration
  | .ok set => set configuration

/-- The entry can be put into a configuration. -/
def Entry.Storable (entry : Entry) : Prop :=
  ∃ set, setting entry.key (StringUtils.kept entry.rest) = .ok set

/-- What stands in the field behind the entries whose lines are not lost. -/
def stored (configuration : Configuration) (lines : List Text)
    (key : ConfigurationKey) : SettingValue :=
  match last Entry.key key ((entries lines).filter fun e => e.Heard) with
  | some entry => (configuration.store entry).get key
  | none => configuration.get key

/-- No line is a key alone, and the last entry of each key fits; when its line
is lost, the setting is what it asks for without it. -/
structure PlainLines (configuration : Configuration) (lines : List Text) :
    Prop where
  no_stray : ∀ line ∈ lines, ¬Stray line
  last_entry : ∀ key entry,
    last Entry.key key (entries lines) = some entry →
      if entry.Heard then entry.Fits
      else meaning key entry.value = some (configuration.stored lines key)

/-! ## Lines that are taken in -/

/-- The entry that the code sees in a line; its key can be unknown. -/
def takenEntry (line : Text) : Option Entry :=
  let text := StringUtils.kept line
  if text = [] ∨ text.head? = some '#' then none
  else
    let (key, value) := keyAndValue text
    some ⟨parseConfigurationKey (StringUtils.kept key), value,
      Text.indent line⟩

variable {line text : Text} {entry : Entry}

theorem takenEntry_of_accepts (h : (lineVerdict line).Accepts) :
    (takenEntry line = none ∧ lineVerdict line = .skip) ∨
      ∃ entry set, takenEntry line = some entry ∧
        setting entry.key (StringUtils.kept entry.rest) = .ok set ∧
        lineVerdict line = .take set := by
  rw [lineVerdict] at h ⊢
  by_cases hoff : StringUtils.RunsOff line
  · rw [if_pos hoff] at h
    exact h.elim
  rw [if_neg hoff] at h ⊢
  by_cases hskip : StringUtils.kept line = [] ∨
      (StringUtils.kept line).head? = some '#'
  · exact .inl ⟨if_pos hskip, if_pos hskip⟩
  simp only [if_neg hskip, takenEntry] at h ⊢
  generalize keyAndValue (StringUtils.kept line) = parts at h ⊢
  obtain ⟨key, value⟩ := parts
  by_cases hoffs : StringUtils.RunsOff key ∨ StringUtils.RunsOff value
  · rw [if_pos hoffs] at h
    exact h.elim
  rw [if_neg hoffs] at h ⊢
  cases hset : setting (parseConfigurationKey (StringUtils.kept key))
      (StringUtils.kept value) with
  | error message =>
      rw [hset] at h
      exact h.elim
  | ok set => exact .inr ⟨_, set, rfl, hset, rfl⟩

theorem readLine_of_accepts (h : (lineVerdict line).Accepts)
    (configuration : Configuration) :
    configuration.readLine line = .ok (.returned ()
      ((takenEntry line).elim configuration configuration.store)) := by
  rw [readLine_eq]
  rcases takenEntry_of_accepts h with
    ⟨htaken, hverdict⟩ | ⟨entry, set, htaken, hset, hverdict⟩
  · rw [htaken, hverdict]
    rfl
  · rw [htaken, hverdict]
    simp only [Option.elim_some, store, hset]

theorem store_of_unknown (h : entry.key = .unknown)
    (configuration : Configuration) :
    configuration.store entry = configuration := by
  rw [store, h]
  rfl

/-! ## White space in front of keys -/

/-- Behind far white space nothing but white space begins what is kept. -/
theorem isSpace_head?_kept (h : Text.Blank text ∨ 2 ^ 31 ≤ Text.indent text) :
    ∀ c ∈ (StringUtils.kept text).head?, Text.isSpace c = true := by
  intro c hc
  rcases StringUtils.kept_eq_nil_or_append text with
    hnil | ⟨before, hkept, hbefore, hfar⟩
  · rw [hnil] at hc
    cases hc
  rcases h with hblank | hindent
  · rw [StringUtils.kept_of_blank hblank] at hc
    cases hc
  have hlength := hfar hindent
  rcases before with _ | ⟨b, before⟩
  · rw [List.length_nil] at hlength
    omega
  · rw [hkept] at hc
    obtain rfl := Option.some.inj hc
    exact hbefore _ List.mem_cons_self

theorem parseConfigurationKey_of_space
    (h : ∀ c ∈ text.head?, Text.isSpace c = true) :
    parseConfigurationKey text = .unknown := by
  by_contra hknown
  refine StringUtils.toUpper_ne h _ ?_ (toUpper_of_known hknown)
  cases parseConfigurationKey text <;> rfl

theorem parseLogLevel_of_space
    (h : ∀ c ∈ text.head?, Text.isSpace c = true) :
    LogLevel.parseLogLevel text = .unknown := by
  have hne := StringUtils.toUpper_ne h
  simp only [LogLevel.parseLogLevel, hne "TRACE".toList rfl,
    hne "DEBUG".toList rfl, hne "INFO".toList rfl, hne "WARN".toList rfl,
    hne "ERROR".toList rfl, if_false]

theorem parseLogMode_of_space
    (h : ∀ c ∈ text.head?, Text.isSpace c = true) :
    LogMode.parseLogMode text = .unknown := by
  have hne := StringUtils.toUpper_ne h
  simp only [LogMode.parseLogMode, hne "TERMINAL".toList rfl,
    hne "FILE".toList rfl, if_false]

theorem keyAndValue_append {before : Text} (hbefore : ':' ∉ before)
    (rest : Text) :
    (keyAndValue (before ++ rest)).1 = before ++ (keyAndValue rest).1 := by
  have hnone : before.findIdx? (fun c => c == ':') = none := by
    rw [List.findIdx?_eq_none_iff]
    intro c hc
    exact beq_eq_false_iff_ne.mpr fun h => hbefore (h ▸ hc)
  simp only [keyAndValue, List.idxOf?, List.findIdx?_append, hnone]
  cases rest.findIdx? fun c => c == ':' with
  | none => rfl
  | some colon =>
      simp [List.take_append, Nat.add_comm colon]

theorem key_of_takenEntry_far (hfar : 2 ^ 31 ≤ Text.indent line)
    (h : takenEntry line = some entry) : entry.key = .unknown := by
  rw [takenEntry] at h
  simp only [Option.ite_none_left_eq_some, Option.some.injEq] at h
  obtain ⟨hskip, rfl⟩ := h
  refine parseConfigurationKey_of_space (isSpace_head?_kept (.inr ?_))
  rcases StringUtils.kept_eq_nil_or_append line with
    hnil | ⟨before, hkept, hbefore, hlength⟩
  · exact absurd (.inl hnil) hskip
  have hcolon : ':' ∉ before := by
    intro hmem
    have hspace := hbefore ':' hmem
    cases hspace
  rw [hkept, keyAndValue_append hcolon]
  exact (hlength hfar).trans (Text.length_le_indent hbefore _)

theorem kept_take {n : ℕ} (h : Text.Tight text) :
    StringUtils.kept (text.take n) = Text.trimmed (text.take n) := by
  rw [StringUtils.kept_eq_trimmed_iff]
  obtain ⟨c, rest, rfl, hc⟩ := h.begins
  cases n with
  | zero => exact .inl (by simp [Text.Blank])
  | succ n => exact .inr (by simp [Text.indent, hc])

theorem kept_of_tight (h : Text.Tight text) : StringUtils.kept text = text := by
  have htake := kept_take (n := text.length) h
  have hnil : Text.Blank [] := fun c hc => absurd hc List.not_mem_nil
  have htrimmed := Text.trimmed_eq hnil h hnil
  rw [List.take_length] at htake
  rw [htake]
  simpa using htrimmed

theorem tight_of_ne_nil (h : Text.trimmed text ≠ []) :
    Text.Tight (Text.trimmed text) :=
  Text.tight_trimmed fun hblank => h (Text.trimmed_of_blank hblank)

theorem takenEntry_near (hnear : Text.indent line < 2 ^ 31)
    (hstray : ¬Stray line) :
    takenEntry line = entryOf line ∨
      entryOf line = none ∧
        ∃ entry, takenEntry line = some entry ∧ entry.key = .unknown := by
  have hkept : StringUtils.kept line = Text.trimmed line :=
    StringUtils.kept_eq_trimmed_iff.mpr (.inr hnear)
  rw [takenEntry, entryOf, hkept]
  by_cases hskip : Text.trimmed line = [] ∨
      (Text.trimmed line).head? = some '#'
  · exact .inl (by simp only [if_pos hskip])
  have htight : Text.Tight (Text.trimmed line) :=
    tight_of_ne_nil fun hnil => hskip (.inl hnil)
  simp only [if_neg hskip, keyAndValue]
  cases hcolon : (Text.trimmed line).idxOf? ':' with
  | none =>
      refine .inr ⟨rfl, _, rfl, ?_⟩
      by_contra hknown
      refine hstray ⟨hnear, List.idxOf?_eq_none_iff.mp hcolon, ?_⟩
      rwa [kept_of_tight htight] at hknown
  | some colon =>
      simp only [kept_take htight]
      by_cases hunknown : parseConfigurationKey
          (Text.trimmed ((Text.trimmed line).take colon)) = .unknown
      · exact .inr ⟨if_pos hunknown, _, rfl, hunknown⟩
      · exact .inl (if_neg hunknown).symm

theorem known_of_entryOf (h : entryOf line = some entry) :
    entry.key ≠ .unknown ∧ entry.indent = Text.indent line := by
  rw [entryOf] at h
  simp only [Option.ite_none_left_eq_some] at h
  obtain ⟨-, h⟩ := h
  split at h
  · cases h
  · obtain ⟨hknown, h⟩ := Option.ite_none_left_eq_some.mp h
    obtain rfl := Option.some.inj h
    exact ⟨hknown, rfl⟩

/-- The entry of the line, when the line is not lost. -/
def heardEntry (line : Text) : Option Entry :=
  (entryOf line).filter fun entry => entry.Heard

theorem takenEntry_of_not_stray (hstray : ¬Stray line) :
    takenEntry line = heardEntry line ∨
      heardEntry line = none ∧
        ∃ entry, takenEntry line = some entry ∧ entry.key = .unknown := by
  by_cases hnear : Text.indent line < 2 ^ 31
  · have hheard : heardEntry line = entryOf line := by
      rw [heardEntry]
      cases hentry : entryOf line with
      | none => rfl
      | some entry =>
          rw [Option.filter_some, if_pos]
          rw [decide_eq_true_eq, Entry.Heard, (known_of_entryOf hentry).2]
          exact hnear
    rw [hheard]
    exact takenEntry_near hnear hstray
  · have hheard : heardEntry line = none := by
      rw [heardEntry, Option.filter_eq_none_iff]
      intro entry hentry
      rw [decide_eq_true_eq, Entry.Heard, (known_of_entryOf hentry).2]
      exact hnear
    cases htaken : takenEntry line with
    | none => exact .inl hheard.symm
    | some entry =>
        exact .inr ⟨hheard, entry, rfl,
          key_of_takenEntry_far (Nat.not_lt.mp hnear) htaken⟩

theorem readLine_of_not_stray (haccepts : (lineVerdict line).Accepts)
    (hstray : ¬Stray line) (configuration : Configuration) :
    configuration.readLine line = .ok (.returned ()
      ((heardEntry line).elim configuration configuration.store)) := by
  rw [readLine_of_accepts haccepts]
  rcases takenEntry_of_not_stray hstray with
    htaken | ⟨hheard, entry, htaken, hunknown⟩
  · rw [htaken]
  · rw [htaken, hheard, Option.elim_some, store_of_unknown hunknown,
      Option.elim_none]

/-! ## The fold of the entries -/

theorem storable_of_heardEntry (haccepts : (lineVerdict line).Accepts)
    (hstray : ¬Stray line) (h : heardEntry line = some entry) :
    entry.Storable := by
  have htaken : takenEntry line = some entry := by
    rcases takenEntry_of_not_stray hstray with htaken | ⟨hheard, -⟩
    · rw [htaken, h]
    · rw [h] at hheard
      cases hheard
  rcases takenEntry_of_accepts haccepts with
    ⟨hnone, -⟩ | ⟨entry', set, hsome, hset, -⟩
  · rw [htaken] at hnone
    cases hnone
  · rw [htaken] at hsome
    obtain rfl := Option.some.inj hsome
    exact ⟨set, hset⟩

/-- What an assignment leaves under its key; a number loses what does not fit
into the field. -/
def assigned (key : ConfigurationKey) (value : Text) :
    Except String SettingValue :=
  match key with
  | .logFilePath | .dataPath => .ok (.text value)
  | .logLevel => .ok (.level (.parseLogLevel value))
  | .logMode => .ok (.mode (.parseLogMode value))
  | .maxMemoryMB =>
      (Text.stoi value).map fun number => .number (number % 2 ^ 32)
  | .maxNodeHeight =>
      (Text.stoi value).map fun number => .number (number % 2 ^ 8)
  | .maxFileSizeMB =>
      (Text.stoi value).map fun number => .number (number % 2 ^ 16)
  | .unknown => .ok (.text [])

section Setting

variable {key k : ConfigurationKey} {value : Text}
  {set : Configuration → Configuration}

theorem number_of_setting {f : ℤ → Configuration → Configuration}
    (hset : (do
      let number ← Text.stoi value
      pure (f number)) = Except.ok set) :
    ∃ number, Text.stoi value = .ok number ∧ set = f number := by
  cases hnumber : Text.stoi value with
  | error message =>
      rw [hnumber] at hset
      cases hset
  | ok number =>
      rw [hnumber] at hset
      exact ⟨number, rfl, (Except.ok.inj hset).symm⟩

theorem get_setting_of_ne (hset : setting key value = .ok set) (hk : k ≠ key)
    (configuration : Configuration) :
    (set configuration).get k = configuration.get k := by
  cases key with
  | logFilePath | logLevel | logMode | dataPath | unknown =>
      obtain rfl := Except.ok.inj hset
      cases k <;> first | rfl | exact absurd rfl hk
  | maxMemoryMB | maxNodeHeight | maxFileSizeMB =>
      obtain ⟨number, -, rfl⟩ := number_of_setting hset
      cases k <;> first | rfl | exact absurd rfl hk

theorem emod_toNat_mod (number : ℤ) (width : ℕ) :
    (((number % 2 ^ width).toNat % 2 ^ width : ℕ) : ℤ) =
      number % 2 ^ width := by
  have hnonneg : 0 ≤ number % 2 ^ width := Int.emod_nonneg _ (by positivity)
  rw [Int.natCast_mod, Int.toNat_of_nonneg hnonneg]
  push_cast
  exact Int.emod_emod_of_dvd _ (dvd_refl _)

theorem get_setting (hset : setting key value = .ok set)
    (configuration : Configuration) :
    assigned key value = .ok ((set configuration).get key) := by
  cases key with
  | logFilePath | logLevel | logMode | dataPath | unknown =>
      obtain rfl := Except.ok.inj hset
      rfl
  | maxMemoryMB =>
      obtain ⟨number, hnumber, rfl⟩ := number_of_setting hset
      rw [assigned, hnumber]
      exact congrArg (fun n => Except.ok (SettingValue.number n))
        (emod_toNat_mod number 32).symm
  | maxNodeHeight =>
      obtain ⟨number, hnumber, rfl⟩ := number_of_setting hset
      rw [assigned, hnumber]
      exact congrArg (fun n => Except.ok (SettingValue.number n))
        (emod_toNat_mod number 8).symm
  | maxFileSizeMB =>
      obtain ⟨number, hnumber, rfl⟩ := number_of_setting hset
      rw [assigned, hnumber]
      exact congrArg (fun n => Except.ok (SettingValue.number n))
        (emod_toNat_mod number 16).symm

end Setting

theorem Entry.Storable.get_store (h : entry.Storable)
    (configuration : Configuration) :
    assigned entry.key (StringUtils.kept entry.rest) =
      .ok ((configuration.store entry).get entry.key) := by
  obtain ⟨set, hset⟩ := h
  rw [store, hset]
  exact get_setting hset configuration

theorem Entry.Storable.writes_store (h : entry.Storable)
    (configuration : Configuration) :
    Writes get store Entry.key (fun e => (configuration.store e).get e.key)
      entry := by
  refine ⟨fun c => ?_, fun c k hk => ?_⟩
  · exact Except.ok.inj
      ((h.get_store c).symm.trans (h.get_store configuration))
  · obtain ⟨set, hset⟩ := h
    rw [store, hset]
    exact get_setting_of_ne hset hk c

section Lines

variable {lines : List Text} {configuration after : Configuration}
  {key : ConfigurationKey}

theorem readLines_of_not_stray
    (haccepts : ∀ line ∈ lines, (lineVerdict line).Accepts)
    (hstray : ∀ line ∈ lines, ¬Stray line) (configuration : Configuration) :
    readLines lines configuration = .ok (.returned ()
      ((lines.filterMap heardEntry).foldl store configuration)) := by
  induction lines generalizing configuration with
  | nil => rfl
  | cons line lines ih =>
      obtain ⟨hline, haccepts⟩ := List.forall_mem_cons.mp haccepts
      obtain ⟨hnot, hstray⟩ := List.forall_mem_cons.mp hstray
      rw [readLines, readLine_of_not_stray hline hnot, ok_bind]
      refine (ih haccepts hstray _).trans ?_
      rw [List.filterMap_cons]
      cases heardEntry line <;> rfl

theorem filterMap_heardEntry (lines : List Text) :
    lines.filterMap heardEntry = (entries lines).filter fun e => e.Heard :=
  List.filter_filterMap.symm

theorem stored_of_heard
    (h : last Entry.key key (entries lines) = some entry)
    (hheard : entry.Heard) :
    configuration.stored lines key =
      (configuration.store entry).get entry.key := by
  have hlast := last_filter_of_pos (p := fun e => decide e.Heard) h
    (decide_eq_true hheard)
  rw [stored, hlast, (mem_of_last h).2]

theorem stored_of_none (h : last Entry.key key (entries lines) = none) :
    configuration.stored lines key = configuration.get key := by
  rw [stored, last_filter_of_none _ h]

theorem get_of_readLines
    (haccepts : ∀ line ∈ lines, (lineVerdict line).Accepts)
    (hstray : ∀ line ∈ lines, ¬Stray line) (filename : Text)
    (hread : readLines lines { configuration with filename := filename } =
      .ok (.returned () after)) (key : ConfigurationKey) :
    after.get key = configuration.stored lines key := by
  rw [readLines_of_not_stray haccepts hstray] at hread
  obtain rfl : _ = after := by simpa using hread
  have hwrites : ∀ entry ∈ lines.filterMap heardEntry, Writes get store Entry.key
      (fun e => (configuration.store e).get e.key) entry := by
    intro entry hentry
    obtain ⟨line, hline, hheard⟩ := List.mem_filterMap.mp hentry
    have hstorable := storable_of_heardEntry (haccepts line hline)
      (hstray line hline) hheard
    exact hstorable.writes_store configuration
  have hfilename : ({ configuration with filename := filename } :
      Configuration).get key = configuration.get key := by
    cases key <;> rfl
  rw [get_foldl hwrites, hfilename, filterMap_heardEntry, stored]
  cases hlast : last Entry.key key
      ((entries lines).filter fun e => e.Heard) with
  | none => rfl
  | some entry =>
      rw [Option.map_some, Option.getD_some, (mem_of_last hlast).2]

end Lines

/-! ## Entries that fit -/

theorem stoi_trimmed {rest : Text} {number : ℤ}
    (h : Text.stoi (StringUtils.kept rest) = .ok number) :
    Text.stoi (Text.trimmed rest) = .ok number := by
  rcases StringUtils.kept_eq_nil_or_append rest with
    hnil | ⟨before, hkept, hbefore, -⟩
  · rw [hnil] at h
    cases h
  · rwa [hkept, Text.stoi_blank_append hbefore] at h

theorem number_iff_numbered {number : ℤ} {width : ℕ}
    (h : Text.stoi (StringUtils.kept entry.rest) = .ok number) :
    (Text.literal entry.value).map SettingValue.number =
        some (.number (number % 2 ^ width)) ↔
      entry.Numbered width := by
  have hwritten : ∀ n, Text.literal entry.value = some n → number = n :=
    fun n hn => Text.stoi_of_literal hn (stoi_trimmed h)
  constructor
  · intro hliteral
    obtain ⟨n, hn, hvalue⟩ := Option.map_eq_some_iff.mp hliteral
    obtain rfl := hwritten n hn
    have hmod : number = number % 2 ^ width := SettingValue.number.inj hvalue
    have hnonneg : 0 ≤ number := by
      rw [hmod]
      exact Int.emod_nonneg _ (by positivity)
    have hlt : number < 2 ^ width := by
      rw [hmod]
      exact Int.emod_lt_of_pos _ (by positivity)
    obtain ⟨n, rfl⟩ := Int.eq_ofNat_of_zero_le hnonneg
    exact ⟨n, hn, by exact_mod_cast hlt⟩
  · rintro ⟨n, hn, hlt⟩
    obtain rfl := hwritten n hn
    have hmod : (n : ℤ) % 2 ^ width = n :=
      Int.emod_eq_of_lt (Int.natCast_nonneg n) (by exact_mod_cast hlt)
    rw [hn, hmod, Option.map_some]

/-- The number that is left is the one that is written exactly when nothing of
it is cut off. -/
theorem literal_iff_numbered {width : ℕ} {v : SettingValue}
    (h : (Text.stoi (StringUtils.kept entry.rest)).map
      (fun number => SettingValue.number (number % 2 ^ width)) = .ok v) :
    (Text.literal entry.value).map SettingValue.number = some v ↔
      entry.Numbered width := by
  cases hnumber : Text.stoi (StringUtils.kept entry.rest) with
  | error message =>
      rw [hnumber] at h
      cases h
  | ok number =>
      rw [hnumber] at h
      obtain rfl := Except.ok.inj h
      exact number_iff_numbered hnumber

theorem parse_kept_iff {α : Type} {parse : Text → α} {unknown : α}
    (hparse : ∀ text : Text, (∀ c ∈ text.head?, Text.isSpace c = true) →
      parse text = unknown) (rest : Text) :
    parse (Text.trimmed rest) = parse (StringUtils.kept rest) ↔
      Text.indent rest < 2 ^ 31 ∨ parse (Text.trimmed rest) = unknown := by
  by_cases hnear : Text.indent rest < 2 ^ 31
  · rw [StringUtils.kept_eq_trimmed_iff.mpr (.inr hnear)]
    exact iff_of_true rfl (.inl hnear)
  · rw [hparse _ (isSpace_head?_kept (.inr (Nat.not_lt.mp hnear))),
      or_iff_right hnear]

/-- The setting is what the entry asks for exactly when the entry fits. -/
theorem Entry.Storable.meaning_iff_fits (h : entry.Storable)
    (hknown : entry.key ≠ .unknown) (configuration : Configuration) :
    meaning entry.key entry.value =
        some ((configuration.store entry).get entry.key) ↔
      entry.Fits := by
  have hassigned := h.get_store configuration
  rw [Entry.Fits]
  generalize (configuration.store entry).get entry.key = v at hassigned ⊢
  cases hkey : entry.key with
  | logFilePath | dataPath =>
      rw [hkey] at hassigned
      obtain rfl := Except.ok.inj hassigned
      simp only [meaning, Option.some.injEq, SettingValue.text.injEq,
        ← StringUtils.kept_eq_trimmed_iff, Entry.value]
      exact eq_comm
  | logLevel =>
      rw [hkey] at hassigned
      obtain rfl := Except.ok.inj hassigned
      simp only [meaning, Option.some.injEq, SettingValue.level.injEq]
      exact parse_kept_iff (fun text => parseLogLevel_of_space) entry.rest
  | logMode =>
      rw [hkey] at hassigned
      obtain rfl := Except.ok.inj hassigned
      simp only [meaning, Option.some.injEq, SettingValue.mode.injEq]
      exact parse_kept_iff (fun text => parseLogMode_of_space) entry.rest
  | maxMemoryMB | maxNodeHeight | maxFileSizeMB =>
      rw [hkey] at hassigned
      exact literal_iff_numbered hassigned
  | unknown => exact absurd hkey hknown

/-! ## Keys without a colon -/

theorem not_skipped_of_known (h : parseConfigurationKey text ≠ .unknown) :
    ¬(text = [] ∨ text.head? = some '#') := by
  have hupper := toUpper_of_known h
  rintro (rfl | hcomment)
  · exact h rfl
  · obtain ⟨rest, rfl⟩ : ∃ rest, text = '#' :: rest := by
      cases text with
      | nil => cases hcomment
      | cons c rest => exact ⟨rest, by rw [Option.some.inj hcomment]⟩
    cases hkey : parseConfigurationKey ('#' :: rest) <;>
      rw [hkey] at hupper <;> cases hupper

theorem stoi_of_toUpper {word : Text}
    (h : StringUtils.toUpper text = 'M' :: word) :
    ∃ message, Text.stoi text = .error message := by
  cases text with
  | nil => cases h
  | cons c rest =>
      have hupper : c.toUpper = 'M' := (List.cons_eq_cons.mp h).1
      have hc : c = 'M' ∨ c = 'm' := by
        rw [Char.toUpper] at hupper
        split at hupper
        · have hval := congrArg Char.val hupper
          change c.val + ('A'.val - 'a'.val) = 'M'.val at hval
          exact .inr (Char.ext (by grind))
        · exact .inl hupper
      rcases hc with rfl | rfl
      · exact ⟨"stoi", rfl⟩
      · exact ⟨"stoi", rfl⟩

theorem takenEntry_of_stray (h : Stray line) :
    entryOf line = none ∧
      takenEntry line = some ⟨parseConfigurationKey (Text.trimmed line),
        Text.trimmed line, Text.indent line⟩ := by
  obtain ⟨hnear, hcolon, hknown⟩ := h
  have hkept : StringUtils.kept line = Text.trimmed line :=
    StringUtils.kept_eq_trimmed_iff.mpr (.inr hnear)
  have hskip := not_skipped_of_known hknown
  have htight : Text.Tight (Text.trimmed line) :=
    tight_of_ne_nil fun hnil => hskip (.inl hnil)
  have hnone : (Text.trimmed line).idxOf? ':' = none :=
    List.idxOf?_eq_none_iff.mpr hcolon
  constructor
  · simp only [entryOf, if_neg hskip, hnone]
  · simp only [takenEntry, hkept, if_neg hskip, keyAndValue, hnone,
      kept_of_tight htight]

/-- A configuration of which nothing has been read. -/
def fresh : Configuration := ⟨[], [], .trace, .terminal, 0, 0, [], 0⟩

theorem assigned_ne_fresh (hknown : parseConfigurationKey text ≠ .unknown) :
    assigned (parseConfigurationKey text) text ≠
      .ok (fresh.get (parseConfigurationKey text)) := by
  have hupper := toUpper_of_known hknown
  have hne : text ≠ [] := fun h => not_skipped_of_known hknown (.inl h)
  intro hassigned
  cases hkey : parseConfigurationKey text with
  | logFilePath | dataPath =>
      rw [hkey] at hassigned
      exact hne (SettingValue.text.inj (Except.ok.inj hassigned))
  | logLevel =>
      rw [hkey] at hassigned hupper
      simp only [assigned, LogLevel.parseLogLevel, hupper] at hassigned
      cases hassigned
  | logMode =>
      rw [hkey] at hassigned hupper
      simp only [assigned, LogMode.parseLogMode, hupper] at hassigned
      cases hassigned
  | maxMemoryMB | maxNodeHeight | maxFileSizeMB =>
      rw [hkey] at hassigned hupper
      obtain ⟨message, herror⟩ := stoi_of_toUpper hupper
      rw [assigned, herror] at hassigned
      cases hassigned
  | unknown => exact hknown hkey

theorem exists_changed_of_stray (haccepts : (lineVerdict line).Accepts)
    (h : Stray line) :
    ∃ configuration : Configuration,
      configuration.readLine line ≠ .ok (.returned () configuration) := by
  obtain ⟨-, htaken⟩ := takenEntry_of_stray h
  obtain ⟨-, -, hknown⟩ := h
  have htight : Text.Tight (Text.trimmed line) :=
    tight_of_ne_nil fun hnil => not_skipped_of_known hknown (.inl hnil)
  refine ⟨fresh, fun hread => ?_⟩
  rcases takenEntry_of_accepts haccepts with
    ⟨hnone, -⟩ | ⟨entry, set, hsome, hset, -⟩
  · rw [htaken] at hnone
    cases hnone
  rw [readLine_of_accepts haccepts, hsome, Option.elim_some, store,
    hset] at hread
  simp only [Except.ok.injEq, Outcome.returned.injEq, true_and] at hread
  rw [htaken] at hsome
  obtain rfl := Option.some.inj hsome
  have hassigned := get_setting hset fresh
  rw [hread] at hassigned
  simp only [kept_of_tight htight] at hassigned
  exact assigned_ne_fresh hknown hassigned

/-! ## The fold -/

section Fold

variable {lines : List Text} {before after : Configuration}
  {filename content : Text}

/-- Under one key: the setting is what the last entry asks for exactly when
this entry fits, or is lost and not missed. -/
theorem last_entry_iff
    (haccepts : ∀ line ∈ lines, (lineVerdict line).Accepts)
    (hstray : ∀ line ∈ lines, ¬Stray line)
    (hget : ∀ key, after.get key = before.stored lines key)
    (key : ConfigurationKey) :
    (match last Entry.key key (entries lines) with
      | some entry => meaning key entry.value = some (after.get key)
      | none => after.get key = before.get key) ↔
      ∀ entry, last Entry.key key (entries lines) = some entry →
        if entry.Heard then entry.Fits
        else meaning key entry.value = some (before.stored lines key) := by
  cases hlast : last Entry.key key (entries lines) with
  | none =>
      refine iff_of_true ?_ (by simp)
      exact (hget key).trans (stored_of_none hlast)
  | some entry =>
      simp only [Option.some.injEq, forall_eq', hget]
      obtain ⟨hmem, rfl⟩ := mem_of_last hlast
      by_cases hheard : entry.Heard
      · rw [if_pos hheard, stored_of_heard hlast hheard]
        obtain ⟨line, hline, hentry⟩ := List.mem_filterMap.mp hmem
        have hheardEntry : heardEntry line = some entry := by
          rw [heardEntry, hentry, Option.filter_some, if_pos]
          exact decide_eq_true hheard
        have hstorable := storable_of_heardEntry (haccepts line hline)
          (hstray line hline) hheardEntry
        exact hstorable.meaning_iff_fits (known_of_entryOf hentry).1 before
      · rw [if_neg hheard]

/-- A file that is read to its end is read as the fold of its lines exactly
when no line is a key alone, and the last entry of each key fits into its
field and is not lost. -/
theorem foldsLines_iff_plainLines
    (hread : before.read filename (some content) =
      .ok (.returned () after)) :
    FoldsLines before after (Text.lines content) ↔
      PlainLines before (Text.lines content) := by
  rw [read] at hread
  have hrun := hread
  rw [readLines_eq_run, Intake.run_eq_returned_iff] at hrun
  obtain ⟨haccepts, -⟩ := hrun
  by_cases hstray : ∀ line ∈ Text.lines content, ¬Stray line
  · have hget := get_of_readLines haccepts hstray filename hread
    have hlast := last_entry_iff haccepts hstray hget
    constructor
    · intro hfolds
      exact ⟨hstray, fun key => (hlast key).mp (hfolds.last_entry key)⟩
    · intro hplain
      refine ⟨fun key => (hlast key).mpr (hplain.last_entry key), ?_⟩
      intro line hline hentry configuration
      rw [readLine_of_not_stray (haccepts line hline) (hstray line hline),
        heardEntry, hentry]
      rfl
  · refine iff_of_false (fun hfolds => ?_) fun hplain => hstray hplain.no_stray
    refine hstray fun line hline hline' => ?_
    obtain ⟨configuration, hchanged⟩ :=
      exists_changed_of_stray (haccepts line hline) hline'
    exact hchanged
      (hfolds.no_entry line hline (takenEntry_of_stray hline').1 configuration)

theorem FoldsLines.meaning_of_last {key : ConfigurationKey}
    (h : FoldsLines before after lines)
    (hlast : last Entry.key key (entries lines) = some entry) :
    meaning key entry.value = some (after.get key) := by
  have hkey := h.last_entry key
  rwa [hlast] at hkey

/-- A height that does not fit is no harm in front of one that does. -/
theorem foldsLines_of_two_heights :
    ∃ after, fresh.read "squid.conf".toList
        (some "maxnodeheight:300\n# 9\nMaxNodeHeight: 12\n".toList) =
          .ok (.returned () after) ∧
      FoldsLines fresh after
        (Text.lines "maxnodeheight:300\n# 9\nMaxNodeHeight: 12\n".toList) := by
  have hread : fresh.read "squid.conf".toList
      (some "maxnodeheight:300\n# 9\nMaxNodeHeight: 12\n".toList) =
        .ok (.returned () { fresh with
          filename := "squid.conf".toList, maxNodeHeight := 12 }) := rfl
  have hentries : entries
      (Text.lines "maxnodeheight:300\n# 9\nMaxNodeHeight: 12\n".toList) =
        [⟨.maxNodeHeight, "300".toList, 0⟩,
          ⟨.maxNodeHeight, " 12".toList, 0⟩] := rfl
  refine ⟨_, hread, (foldsLines_iff_plainLines hread).mpr ?_⟩
  refine ⟨by decide, fun key entry hentry => ?_⟩
  rw [hentries] at hentry
  cases key with
  | maxNodeHeight =>
      obtain rfl : ⟨.maxNodeHeight, " 12".toList, 0⟩ = entry :=
        Option.some.inj hentry
      rw [if_pos (by decide)]
      exact ⟨12, by decide, by decide⟩
  | _ => cases hentry

/-- A key alone becomes the path, and a height of 300 becomes one of 44. -/
theorem read_of_key_alone :
    ∃ after, fresh.read "squid.conf".toList
        (some "DataPath\nMaxNodeHeight: 300\n".toList) =
          .ok (.returned () after) ∧
      after.get .dataPath = .text "DataPath".toList ∧
      after.get .maxNodeHeight = .number 44 ∧
      ¬FoldsLines fresh after
        (Text.lines "DataPath\nMaxNodeHeight: 300\n".toList) := by
  refine ⟨{ fresh with
    filename := "squid.conf".toList
    maxNodeHeight := 44
    dataPath := "DataPath".toList }, rfl, rfl, rfl, ?_⟩
  intro hfolds
  have hlast : last Entry.key .maxNodeHeight
      (entries (Text.lines "DataPath\nMaxNodeHeight: 300\n".toList)) =
        some ⟨.maxNodeHeight, " 300".toList, 0⟩ := rfl
  exact absurd (hfolds.meaning_of_last hlast) (by decide)

end Fold

end SquidDB.Utils.Configuration
