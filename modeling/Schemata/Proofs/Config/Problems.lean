import Mathlib.Data.List.Basic
import Schemata.Config
import Schemata.Proofs.File.Paths
import Schemata.Proofs.Outcome
import Schemata.Yaml.Document

/-!
# Problems of configurations

What data must be to describe a configuration is `Config.Describes`. Data can violate it in several
ways at once (`Config.Violation`), at different places. The places have an order, and reading data
reports each violation once, in this order (`Config.exists_violations`). So there is a configuration
just if data describe one, and then it says what they say (`Config.parse_reports`). All of this is
about the data that a reader makes of a text, whatever reader it is.
-/

namespace Schemata

/-- A text that is not empty. -/
def Yaml.IsPath (d : Yaml) : Prop := ∃ path, d = .text path ∧ path ≠ ""

theorem Yaml.isPath_text {path : String} : (Yaml.text path).IsPath ↔ path ≠ "" := by
  simp [IsPath]

instance : DecidablePred Yaml.IsPath
  | .text _ => decidable_of_iff _ Yaml.isPath_text.symm
  | .null | .bool _ | .number _ | .list _ | .mapping _ => isFalse nofun

namespace Config

/-- The sections of a configuration; each has one setting. -/
inductive Section where
  | printer
  | watch
deriving DecidableEq, Repr

namespace Section

def name : Section → String
  | printer => "printer"
  | watch => "watch"

/-- The name of the setting. -/
def key : Section → String
  | printer => "maxDepth"
  | watch => "debounce"

/-- The least number that the setting may be. -/
def least : Section → Nat
  | printer => 1
  | watch => 0

/-- What the setting is if it is missing. -/
def fallback : Section → Number
  | printer => .integral 256
  | watch => .integral 300

/-- The place among the parts of a configuration. -/
def group : Section → Nat
  | printer => 3
  | watch => 4

theorem eq_of_group_eq {s t : Section} (h : s.group = t.group) : s = t := by
  cases s <;> cases t <;> first | rfl | cases h

theorem isFrom_fallback (s : Section) : isIntegerFrom s.least s.fallback = true := by
  cases s <;> rfl

end Section

/-- An integer that is not below a least one. -/
def IsFrom (least : Nat) (x : Number) : Prop := ∃ n : Int, x.toInt? = some n ∧ (least : Int) ≤ n

/-- The entries of a mapping that describes a configuration. -/
structure Describes (entries : List (String × Yaml)) : Prop where
  keys : ∀ e ∈ entries, e.1 ∈ ["schemas", "outputDir", "printer", "watch"]
  schemas : ∃ items, Yaml.find? entries "schemas" = some (.list items) ∧ items ≠ [] ∧
    ∀ d ∈ items, d.IsPath
  outputDir : ∀ d, Yaml.find? entries "outputDir" = some d → d.IsPath
  sections : ∀ (s : Section) (d : Yaml), Yaml.find? entries s.name = some d →
    d = .null ∨ ∃ settings, d = .mapping settings ∧
      ∀ v, Yaml.find? settings s.key = some v → ∃ x, v = .number x ∧ IsFrom s.least x

/-- What can be wrong with the entries of a mapping: an entry with an unknown key, no list of
schemas, an item of it that is no path, no directory for the output, a section that is no mapping, a
setting that is no number of the kind. -/
inductive Violation where
  | unknownKey (place : Nat) (key : String)
  | noSchemas
  | noPath (index : Nat)
  | noDirectory
  | noMapping (s : Section)
  | noNumber (s : Section)
deriving DecidableEq, Repr

namespace Violation

/-- It is wrong with the entries. -/
inductive Holds (entries : List (String × Yaml)) : Violation → Prop
  | unknownKey {place : Nat} {key : String} : (entries.map Prod.fst)[place]? = some key →
    key ∉ ["schemas", "outputDir", "printer", "watch"] → Holds entries (.unknownKey place key)
  | noSchemas : (∀ items, Yaml.find? entries "schemas" = some (.list items) → items = []) →
    Holds entries .noSchemas
  | noPath {items : List Yaml} {index : Nat} {d : Yaml} :
    Yaml.find? entries "schemas" = some (.list items) → items[index]? = some d → ¬d.IsPath →
    Holds entries (.noPath index)
  | noDirectory {d : Yaml} : Yaml.find? entries "outputDir" = some d → ¬d.IsPath →
    Holds entries .noDirectory
  | noMapping {s : Section} {d : Yaml} : Yaml.find? entries s.name = some d → d ≠ .null →
    (∀ settings, d ≠ .mapping settings) → Holds entries (.noMapping s)
  | noNumber {s : Section} {settings : List (String × Yaml)} {v : Yaml} :
    Yaml.find? entries s.name = some (.mapping settings) → Yaml.find? settings s.key = some v →
    (∀ x, v = .number x → ¬IsFrom s.least x) → Holds entries (.noNumber s)

/-- The place of what is wrong: keys come first, then the schemas, the output and the sections. -/
def group : Violation → Nat
  | unknownKey _ _ => 0
  | noSchemas | noPath _ => 1
  | noDirectory => 2
  | noMapping s | noNumber s => s.group

/-- The place among those of the same group. -/
def place : Violation → Nat
  | unknownKey place _ => place
  | noPath index => index
  | _ => 0

/-- What is wrong is reported before something else. -/
def Before (v w : Violation) : Prop := v.group < w.group ∨ v.group = w.group ∧ v.place < w.place

/-- How it is reported. -/
def diagnostic : Violation → Diagnostic
  | unknownKey _ key => .error key ("Unknown configuration key \"" ++ key ++ "\"")
    (some "Use one of: schemas, outputDir, printer, watch")
  | noSchemas => .error "schemas" "At least one schema file is required"
    (some "Add e.g. \"schemas: [schema.asdl]\"")
  | noPath index =>
    .error ("schemas[" ++ toString index ++ "]") "Schema entry must be a file path" none
  | noDirectory => .error "outputDir" "outputDir must be a directory path" none
  | noMapping s => .error s.name (s.name ++ " must be a mapping") none
  | noNumber s => .error (s.name ++ "." ++ s.key)
    (s.name ++ "." ++ s.key ++ " must be an integer >= " ++ toString s.least) none

end Violation

/-- The number that is given for a setting. -/
def given? (entries : List (String × Yaml)) (s : Section) : Option Number :=
  match Yaml.find? entries s.name with
  | some (.mapping settings) =>
    match Yaml.find? settings s.key with
    | some (.number x) => some x
    | _ => none
  | _ => none

/-- The configuration has what the entries say, as absolute paths from the base, and the defaults
for what they do not say. -/
structure Reads (base : String) (entries : List (String × Yaml)) (config : Config) : Prop where
  schemas : ∃ files : List String, Yaml.find? entries "schemas" = some (.list (files.map .text)) ∧
    config.schemas = files.map (FilePath.resolve base)
  outputDir : Yaml.find? entries "outputDir" = none ∧
      config.outputDir = FilePath.resolve base "generated" ∨
    ∃ path, Yaml.find? entries "outputDir" = some (.text path) ∧
      config.outputDir = FilePath.resolve base path
  absolute : ∀ path ∈ config.outputDir :: config.schemas, FilePath.isAbsolute path
  maxDepth : config.maxDepth = (given? entries .printer).getD (.integral 256) ∧
    IsFrom 1 config.maxDepth
  debounce : config.debounce = (given? entries .watch).getD (.integral 300) ∧
    IsFrom 0 config.debounce

variable {base text : String} {entries : List (String × Yaml)} {found found' : List Diagnostic}
  {low middle high : Nat} {items : List Yaml} {config : Config} {raw : Yaml}

theorem isIntegerFrom_iff {least : Nat} {x : Number} :
    isIntegerFrom least x = true ↔ IsFrom least x := by
  unfold isIntegerFrom IsFrom
  cases x.toInt? <;> simp

/-! ## Reports -/

/-- The problems are what is wrong in the groups from `low` on and below `high`, each once and in
order. -/
def Reports (entries : List (String × Yaml)) (low high : Nat) (found : List Diagnostic) : Prop :=
  ∃ vs : List Violation, found = vs.map Violation.diagnostic ∧
    (∀ v, v ∈ vs ↔ v.Holds entries ∧ low ≤ v.group ∧ v.group < high) ∧ vs.Pairwise Violation.Before

theorem Reports.append (h : Reports entries low middle found)
    (h' : Reports entries middle high found') (hlow : low ≤ middle) (hhigh : middle ≤ high) :
    Reports entries low high (found ++ found') := by
  obtain ⟨vs, rfl, hvs, hsorted⟩ := h
  obtain ⟨ws, rfl, hws, hsorted'⟩ := h'
  refine ⟨vs ++ ws, List.map_append.symm, fun v => ?_, List.pairwise_append.mpr
    ⟨hsorted, hsorted', fun v hv w hw => .inl ?_⟩⟩
  · rw [List.mem_append, hvs, hws, ← and_or_left]
    refine and_congr_right fun _ => ?_
    omega
  · exact Nat.lt_of_lt_of_le ((hvs v).mp hv).2.2 ((hws w).mp hw).2.1

/-- Nothing is wrong in a group. -/
theorem reports_nil (h : ∀ v : Violation, v.group = low → ¬v.Holds entries) :
    Reports entries low (low + 1) [] := by
  refine ⟨[], rfl, fun v => ?_, .nil⟩
  simp only [List.not_mem_nil, false_iff]
  rintro ⟨hv, hlow, hhigh⟩
  exact h v (by omega) hv

/-- One thing is wrong in a group. -/
theorem reports_singleton {v : Violation} (hv : v.Holds entries)
    (h : ∀ w : Violation, w.group = v.group → w.Holds entries → w = v) :
    Reports entries v.group (v.group + 1) [v.diagnostic] := by
  refine ⟨[v], rfl, fun w => ?_, List.pairwise_singleton _ _⟩
  rw [List.mem_singleton]
  constructor
  · rintro rfl
    exact ⟨hv, by omega, by omega⟩
  · rintro ⟨hw, hlow, hhigh⟩
    exact h w (by omega) hw

/-- What is wrong with members of a list is reported member by member. -/
theorem reports_members {α : Type} (as : List α) (p : α → Bool) (f : α × Nat → Violation)
    (hgroup : ∀ e, (f e).group = low) (hplace : ∀ e, (f e).place = e.2)
    (h : ∀ v : Violation, v.group = low →
      (v.Holds entries ↔ ∃ e, (as[e.2]? = some e.1 ∧ p e.1) ∧ f e = v)) :
    Reports entries low (low + 1)
      (((as.zipIdx.filter fun e => p e.1).map f).map Violation.diagnostic) := by
  refine ⟨_, rfl, fun v => ?_, List.pairwise_map.mpr ?_⟩
  · simp only [List.mem_map, List.mem_filter, List.mem_zipIdx_iff_getElem?]
    constructor
    · rintro ⟨e, he, rfl⟩
      exact ⟨(h _ (hgroup e)).mpr ⟨e, he, rfl⟩, Nat.le_of_eq (hgroup e).symm, by rw [hgroup]; omega⟩
    · rintro ⟨hv, hlow, hhigh⟩
      exact (h v (by omega)).mp hv
  · -- places ascend along the list, and so they do along what is left of it
    have hsorted : as.zipIdx.Pairwise fun e e' => e.2 < e'.2 := by
      rw [← List.pairwise_map, List.zipIdx_map_snd]
      exact List.pairwise_lt_range'
    refine (hsorted.filter _).imp fun {e e'} hlt => .inr ⟨?_, ?_⟩
    · rw [hgroup, hgroup]
    · rwa [hplace, hplace]

/-! ## The parts of a configuration -/

/-- A problem of a key is told from the key alone. -/
theorem unknownKeys_eq (entries : List (String × Yaml)) :
    unknownKeys entries =
      (((entries.map Prod.fst).zipIdx.filter fun e => decide (e.1 ∉ knownKeys)).map
        fun e => Violation.unknownKey e.2 e.1).map Violation.diagnostic := by
  have hkeys : entries.map Prod.fst = (entries.map Prod.fst).zipIdx.map Prod.fst :=
    (List.zipIdx_map_fst 0 _).symm
  calc unknownKeys entries
      = ((entries.map Prod.fst).filter fun key => decide (key ∉ knownKeys)).map
          fun key => (Violation.unknownKey 0 key).diagnostic := by
        rw [List.filter_map, List.map_map]
        rfl
    _ = _ := by
        rw [hkeys, List.filter_map, List.map_map, List.map_map, ← hkeys]
        rfl

theorem reports_unknownKeys (entries : List (String × Yaml)) :
    Reports entries 0 1 (unknownKeys entries) := by
  rw [unknownKeys_eq]
  refine reports_members (entries.map Prod.fst) (fun key => decide (key ∉ knownKeys)) _
    (fun _ => rfl) (fun _ => rfl) fun v hv => ⟨fun h => ?_, ?_⟩
  · cases h with
    | unknownKey hkey hunknown => exact ⟨(_, _), ⟨hkey, decide_eq_true hunknown⟩, rfl⟩
    | @noMapping s | @noNumber s => cases s <;> cases hv
    | _ => cases hv
  · rintro ⟨e, ⟨hkey, hunknown⟩, rfl⟩
    exact .unknownKey hkey (of_decide_eq_true hunknown)

theorem schemaEntry_of_isPath {path : String} (h : path ≠ "") (base : String) (index : Nat) :
    schemaEntry base index (.text path) = ⟨[FilePath.resolve base path], []⟩ := by
  simp only [schemaEntry, if_neg h]

theorem schemaEntry_of_not_isPath {d : Yaml} (h : ¬d.IsPath) (base : String) (index : Nat) :
    schemaEntry base index d = ⟨[], [(Violation.noPath index).diagnostic]⟩ := by
  cases d with
  | text path =>
    rw [Yaml.isPath_text, not_not] at h
    simp only [schemaEntry, if_pos h]
    rfl
  | _ => rfl

theorem schemaEntries_problems (base : String) (index : Nat) (items : List Yaml) :
    (schemaEntries base index items).problems =
      ((items.zipIdx index).filter fun e => decide ¬e.1.IsPath).map
        fun e => (Violation.noPath e.2).diagnostic := by
  induction items generalizing index with
  | nil => rfl
  | cons d items ih =>
    simp only [schemaEntries, ih, List.zipIdx_cons]
    by_cases hd : d.IsPath
    · obtain ⟨path, rfl, hpath⟩ := id hd
      rw [schemaEntry_of_isPath hpath, List.filter_cons_of_neg (by simpa using hd)]
      rfl
    · rw [schemaEntry_of_not_isPath hd, List.filter_cons_of_pos (by simpa using hd)]
      rfl

theorem schemasSetting_of_list (h : Yaml.find? entries "schemas" = some (.list items))
    (hne : items ≠ []) (base : String) :
    schemasSetting base entries = schemaEntries base 0 items := by
  obtain ⟨d, ds, rfl⟩ := List.exists_cons_of_ne_nil hne
  simp only [schemasSetting, h]

theorem schemasSetting_of_missing
    (h : ∀ items, Yaml.find? entries "schemas" = some (.list items) → items = []) (base : String) :
    schemasSetting base entries = ⟨[], [Violation.noSchemas.diagnostic]⟩ := by
  unfold schemasSetting
  split
  · next hitems => cases h _ hitems
  · rfl

theorem reports_schemas (base : String) (entries : List (String × Yaml)) :
    Reports entries 1 2 (schemasSetting base entries).problems := by
  by_cases hmissing : ∀ items, Yaml.find? entries "schemas" = some (.list items) → items = []
  · rw [schemasSetting_of_missing hmissing]
    refine reports_singleton (.noSchemas hmissing) fun w hw h => ?_
    cases h with
    | noSchemas => rfl
    | noPath hitems hindex => cases hmissing _ hitems; cases hindex
    | @noMapping s | @noNumber s => cases s <;> cases hw
    | _ => cases hw
  · push Not at hmissing
    obtain ⟨items, hitems, hne⟩ := hmissing
    rw [schemasSetting_of_list hitems hne, schemaEntries_problems,
      ← Function.comp_def Violation.diagnostic, ← List.map_map]
    refine reports_members items (fun d => decide ¬d.IsPath) _ (fun _ => rfl) (fun _ => rfl)
      fun v hv => ⟨fun h => ?_, ?_⟩
    · cases h with
      | noSchemas h => exact absurd (h items hitems) hne
      | noPath hitems' hindex hd =>
        cases hitems.symm.trans hitems'
        exact ⟨(_, _), ⟨hindex, decide_eq_true hd⟩, rfl⟩
      | @noMapping s | @noNumber s => cases s <;> cases hv
      | _ => cases hv
    · rintro ⟨e, ⟨hindex, hd⟩, rfl⟩
      exact .noPath hitems hindex (of_decide_eq_true hd)

theorem outputSetting_of_none (h : Yaml.find? entries "outputDir" = none) (base : String) :
    outputSetting base entries = ⟨FilePath.resolve base "generated", []⟩ := by
  simp only [outputSetting, h, defaultOutputDir]

theorem outputSetting_of_isPath {path : String}
    (h : Yaml.find? entries "outputDir" = some (.text path)) (hpath : path ≠ "") (base : String) :
    outputSetting base entries = ⟨FilePath.resolve base path, []⟩ := by
  simp only [outputSetting, h, if_neg hpath]

theorem outputSetting_of_not_isPath {d : Yaml} (h : Yaml.find? entries "outputDir" = some d)
    (hd : ¬d.IsPath) (base : String) :
    outputSetting base entries = ⟨"", [Violation.noDirectory.diagnostic]⟩ := by
  cases d with
  | text path =>
    rw [Yaml.isPath_text, not_not] at hd
    simp only [outputSetting, h, if_pos hd]
    rfl
  | _ =>
    simp only [outputSetting, h]
    rfl

theorem reports_output (base : String) (entries : List (String × Yaml)) :
    Reports entries 2 3 (outputSetting base entries).problems := by
  have honly : ∀ v : Violation, v.group = 2 → v = .noDirectory := by
    intro v hv
    cases v with
    | noDirectory => rfl
    | noMapping s | noNumber s => cases s <;> cases hv
    | _ => cases hv
  rcases hfound : Yaml.find? entries "outputDir" with _ | d
  · rw [outputSetting_of_none hfound]
    refine reports_nil fun v hv h => ?_
    rw [honly v hv] at h
    cases h with
    | noDirectory h => cases hfound.symm.trans h
  by_cases hd : d.IsPath
  · obtain ⟨path, rfl, hpath⟩ := id hd
    rw [outputSetting_of_isPath hfound hpath]
    refine reports_nil fun v hv h => ?_
    rw [honly v hv] at h
    cases h with
    | noDirectory h h' => cases hfound.symm.trans h; exact h' hd
  · rw [outputSetting_of_not_isPath hfound hd]
    exact reports_singleton (.noDirectory hfound hd) fun w hw _ => honly w hw

theorem holds_noMapping_iff {s : Section} : (Violation.noMapping s).Holds entries ↔
    ∃ d, Yaml.find? entries s.name = some d ∧ d ≠ .null ∧ ∀ settings, d ≠ .mapping settings := by
  constructor
  · rintro (_ | _ | _ | _ | ⟨hfound, hnull, hmapping⟩ | _)
    exact ⟨_, hfound, hnull, hmapping⟩
  · rintro ⟨d, hfound, hnull, hmapping⟩
    exact .noMapping hfound hnull hmapping

theorem holds_noNumber_iff {s : Section} : (Violation.noNumber s).Holds entries ↔
    ∃ settings v, Yaml.find? entries s.name = some (.mapping settings) ∧
      Yaml.find? settings s.key = some v ∧ ∀ x, v = .number x → ¬IsFrom s.least x := by
  constructor
  · rintro (_ | _ | _ | _ | _ | ⟨hfound, hkey, hnumber⟩)
    exact ⟨_, _, hfound, hkey, hnumber⟩
  · rintro ⟨settings, v, hfound, hkey, hnumber⟩
    exact .noNumber hfound hkey hnumber

/-- What a section has for its setting, or the one thing that is wrong with it. -/
theorem numberSetting_eq (s : Section) (entries : List (String × Yaml)) :
    (¬(Violation.noMapping s).Holds entries ∧ ¬(Violation.noNumber s).Holds entries ∧
        IsFrom s.least ((given? entries s).getD s.fallback) ∧
        numberSetting s.name s.key s.fallback s.least entries =
          ⟨(given? entries s).getD s.fallback, []⟩) ∨
      ∃ v : Violation, (v = .noMapping s ∨ v = .noNumber s) ∧ v.Holds entries ∧
        numberSetting s.name s.key s.fallback s.least entries = ⟨s.fallback, [v.diagnostic]⟩ := by
  have hfallback := isIntegerFrom_iff.mp s.isFrom_fallback
  rw [holds_noMapping_iff, holds_noNumber_iff]
  -- the section is missing, null, a mapping or something else
  unfold numberSetting given?
  rcases hfound : Yaml.find? entries s.name with _ | d
  · exact .inl ⟨by simp, by simp, hfallback, rfl⟩
  cases d with
  | null => exact .inl ⟨by simp, by simp, hfallback, rfl⟩
  | mapping settings =>
    rcases hkey : Yaml.find? settings s.key with _ | v
    · exact .inl ⟨by simp, by simp [hkey], by simpa [hkey] using hfallback, by simp [hkey]⟩
    by_cases hnumber : ∃ x, v = .number x ∧ IsFrom s.least x
    · obtain ⟨x, rfl, hx⟩ := hnumber
      have hinteger := isIntegerFrom_iff.mpr hx
      exact .inl ⟨by simp, by simp [hkey, hx], by simpa [hkey] using hx, by simp [hkey, hinteger]⟩
    · refine .inr ⟨.noNumber s, .inr rfl, .noNumber hfound hkey
        fun x hv hx => hnumber ⟨x, hv, hx⟩, ?_⟩
      simp only [hkey]
      split
      · cases ‹some v = none›
      · next x hv =>
        cases hv
        rw [if_neg fun hx => hnumber ⟨x, rfl, isIntegerFrom_iff.mp hx⟩]
        rfl
      · rfl
  | _ => exact .inr ⟨.noMapping s, .inl rfl, .noMapping hfound nofun nofun, rfl⟩

/-- What is wrong with a section is one thing. -/
theorem Violation.eq_of_holds {s : Section} {v w : Violation}
    (hv : v = .noMapping s ∨ v = .noNumber s) (hw : w = .noMapping s ∨ w = .noNumber s)
    (h : v.Holds entries) (h' : w.Holds entries) : w = v := by
  have hnot : (noMapping s).Holds entries → (noNumber s).Holds entries → False := by
    rw [holds_noMapping_iff, holds_noNumber_iff]
    rintro ⟨d, hfound, -, hmapping⟩ ⟨settings, v, hfound', -⟩
    cases hfound.symm.trans hfound'
    exact hmapping settings rfl
  rcases hv with rfl | rfl <;> rcases hw with rfl | rfl
  · rfl
  · exact (hnot h h').elim
  · exact (hnot h' h).elim
  · rfl

theorem Violation.eq_of_group_eq {s : Section} {v : Violation} (h : v.group = s.group) :
    v = .noMapping s ∨ v = .noNumber s := by
  cases v with
  | noMapping t => exact .inl (by rw [Section.eq_of_group_eq h])
  | noNumber t => exact .inr (by rw [Section.eq_of_group_eq h])
  | _ => cases s <;> cases h

theorem reports_section (s : Section) (entries : List (String × Yaml)) :
    Reports entries s.group (s.group + 1)
      (numberSetting s.name s.key s.fallback s.least entries).problems := by
  rcases numberSetting_eq s entries with ⟨hmapping, hnumber, -, heq⟩ | ⟨v, hv, hholds, heq⟩
  · rw [heq]
    refine reports_nil fun w hw h => ?_
    rcases Violation.eq_of_group_eq hw with rfl | rfl
    · exact hmapping h
    · exact hnumber h
  · have hgroup : v.group = s.group := by rcases hv with rfl | rfl <;> rfl
    rw [heq, ← hgroup]
    exact reports_singleton hholds fun w hw h =>
      Violation.eq_of_holds hv (Violation.eq_of_group_eq (hw.trans hgroup)) hholds h

/-! ## Configurations -/

/-- What is wrong with the entries of a mapping. -/
def problems (base : String) (entries : List (String × Yaml)) : List Diagnostic :=
  unknownKeys entries ++ (schemasSetting base entries).problems ++
    (outputSetting base entries).problems ++
    (numberSetting "printer" "maxDepth" defaultMaxDepth 1 entries).problems ++
    (numberSetting "watch" "debounce" defaultDebounce 0 entries).problems

theorem ofYaml_mapping (base : String) (entries : List (String × Yaml)) :
    ofYaml base (.mapping entries) =
      if (problems base entries).isEmpty then
        .ok ⟨(schemasSetting base entries).value, (outputSetting base entries).value,
          (numberSetting "printer" "maxDepth" defaultMaxDepth 1 entries).value,
          (numberSetting "watch" "debounce" defaultDebounce 0 entries).value⟩
      else .error ⟨problems base entries⟩ := rfl

theorem reports_problems (base : String) (entries : List (String × Yaml)) :
    Reports entries 0 5 (problems base entries) := by
  have hkeys := reports_unknownKeys entries
  have hschemas := hkeys.append (reports_schemas base entries) (by omega) (by omega)
  have houtput := hschemas.append (reports_output base entries) (by omega) (by omega)
  have hprinter := houtput.append (reports_section .printer entries) (by decide) (by decide)
  exact hprinter.append (reports_section .watch entries) (by decide) (by decide)

/-- Each thing that is wrong is reported once, in the order of the places. -/
theorem exists_violations (base : String) (entries : List (String × Yaml)) :
    ∃ vs : List Violation, problems base entries = vs.map Violation.diagnostic ∧
      (∀ v, v ∈ vs ↔ v.Holds entries) ∧ vs.Pairwise Violation.Before := by
  obtain ⟨vs, hproblems, hvs, hsorted⟩ := reports_problems base entries
  refine ⟨vs, hproblems, fun v => (hvs v).trans (and_iff_left ⟨Nat.zero_le _, ?_⟩), hsorted⟩
  cases v with
  | noMapping s | noNumber s => cases s <;> decide
  | _ => simp [Violation.group]

/-- Nothing is before itself, so what is ordered has no duplicates. -/
theorem Violation.nodup_of_pairwise {vs : List Violation} (h : vs.Pairwise Before) : vs.Nodup := by
  refine h.imp fun {v w} hvw => ?_
  rintro rfl
  unfold Before at hvw
  omega

theorem describes_iff : Describes entries ↔ ∀ v : Violation, ¬v.Holds entries := by
  constructor
  · rintro ⟨hkeys, ⟨items, hitems, hne, hpaths⟩, houtput, hsections⟩ v hv
    cases hv with
    | unknownKey hkey hunknown =>
      obtain ⟨e, he, rfl⟩ := List.mem_map.mp (List.mem_of_getElem? hkey)
      exact hunknown (hkeys e he)
    | noSchemas h => exact hne (h items hitems)
    | noPath hitems' hindex hd =>
      cases hitems.symm.trans hitems'
      exact hd (hpaths _ (List.mem_of_getElem? hindex))
    | noDirectory hfound hd => exact hd (houtput _ hfound)
    | noMapping hfound hnull hmapping =>
      rcases hsections _ _ hfound with rfl | ⟨settings, rfl, -⟩
      · exact hnull rfl
      · exact hmapping settings rfl
    | noNumber hfound hkey hnumber =>
      rcases hsections _ _ hfound with h | ⟨settings, h, hsettings⟩
      · cases h
      · cases h
        obtain ⟨x, rfl, hx⟩ := hsettings _ hkey
        exact hnumber x rfl hx
  · -- each part of a description that is not there is one of the violations
    intro h
    refine ⟨fun e he => ?_, ?_, fun d hfound => ?_, fun s d hfound => ?_⟩
    · by_contra hunknown
      obtain ⟨place, hplace⟩ := List.mem_iff_getElem?.mp (List.mem_map_of_mem (f := Prod.fst) he)
      exact h _ (.unknownKey hplace hunknown)
    · by_contra hmissing
      refine h _ (.noSchemas fun items hitems => ?_)
      by_contra hne
      refine hmissing ⟨items, hitems, hne, fun d hd => ?_⟩
      by_contra hpath
      obtain ⟨index, hindex⟩ := List.mem_iff_getElem?.mp hd
      exact h _ (.noPath hitems hindex hpath)
    · by_contra hpath
      exact h _ (.noDirectory hfound hpath)
    · by_contra hbad
      rw [not_or] at hbad
      refine h _ (.noMapping hfound hbad.1 fun settings hd =>
        hbad.2 ⟨settings, hd, fun v hkey => ?_⟩)
      by_contra hnumber
      exact h _ (.noNumber (hd ▸ hfound) hkey fun x hv hx => hnumber ⟨x, hv, hx⟩)

theorem problems_eq_nil_iff (base : String) (entries : List (String × Yaml)) :
    problems base entries = [] ↔ Describes entries := by
  obtain ⟨vs, hproblems, hvs, -⟩ := exists_violations base entries
  rw [hproblems, List.map_eq_nil_iff, List.eq_nil_iff_forall_not_mem, describes_iff]
  exact forall_congr' fun v => not_congr (hvs v)

theorem schemaEntries_value_of_isPath (base : String) (index : Nat) (h : ∀ d ∈ items, d.IsPath) :
    ∃ files : List String, items = files.map .text ∧
      (schemaEntries base index items).value = files.map (FilePath.resolve base) := by
  induction items generalizing index with
  | nil => exact ⟨[], rfl, rfl⟩
  | cons d items ih =>
    obtain ⟨hd, hitems⟩ := List.forall_mem_cons.mp h
    obtain ⟨path, rfl, hpath⟩ := hd
    obtain ⟨files, rfl, hfiles⟩ := ih (index + 1) hitems
    refine ⟨path :: files, rfl, ?_⟩
    rw [schemaEntries, schemaEntry_of_isPath hpath, hfiles]
    rfl

theorem reads_section (h : Describes entries) (s : Section) :
    (numberSetting s.name s.key s.fallback s.least entries).value =
        (given? entries s).getD s.fallback ∧
      IsFrom s.least (numberSetting s.name s.key s.fallback s.least entries).value := by
  rcases numberSetting_eq s entries with ⟨-, -, hfrom, heq⟩ | ⟨v, -, hv, -⟩
  · rw [heq]
    exact ⟨rfl, hfrom⟩
  · exact absurd hv (describes_iff.mp h v)

/-- Data that describe a configuration give the one that they describe. -/
theorem ofYaml_reads (h : Describes entries) (base : String) :
    ∃ config, ofYaml base (.mapping entries) = .ok config ∧ Reads base entries config := by
  rw [ofYaml_mapping, (problems_eq_nil_iff base entries).mpr h, List.isEmpty_nil, if_pos rfl]
  refine ⟨_, rfl, ?_⟩
  obtain ⟨items, hitems, hne, hpaths⟩ := h.schemas
  obtain ⟨files, rfl, hfiles⟩ := schemaEntries_value_of_isPath base 0 hpaths
  have hschemas : (schemasSetting base entries).value = files.map (FilePath.resolve base) := by
    rw [schemasSetting_of_list hitems hne, hfiles]
  have houtput : Yaml.find? entries "outputDir" = none ∧
      (outputSetting base entries).value = FilePath.resolve base "generated" ∨
      ∃ path, Yaml.find? entries "outputDir" = some (.text path) ∧
        (outputSetting base entries).value = FilePath.resolve base path := by
    rcases hfound : Yaml.find? entries "outputDir" with _ | d
    · exact .inl ⟨rfl, by rw [outputSetting_of_none hfound]⟩
    · obtain ⟨path, rfl, hpath⟩ := h.outputDir d hfound
      exact .inr ⟨path, rfl, by rw [outputSetting_of_isPath hfound hpath]⟩
  refine ⟨⟨files, hitems, hschemas⟩, houtput, fun path hpath => ?_, reads_section h .printer,
    reads_section h .watch⟩
  rcases List.mem_cons.mp hpath with rfl | hpath
  · rcases houtput with ⟨-, h⟩ | ⟨path, -, h⟩ <;>
      exact h ▸ FilePath.isAbsolute_resolve base _
  · obtain ⟨file, -, rfl⟩ := List.mem_map.mp (hschemas ▸ hpath)
    exact FilePath.isAbsolute_resolve base file

variable {read : Yaml.Reader} {current : String}

/-- A configuration is what the data of its text describe. -/
theorem of_parse_eq_ok (h : parse read current base text = .ok config) :
    ∃ entries, read text = .ok (.mapping entries) ∧ Describes entries ∧
      Reads (FilePath.resolve current base) entries config := by
  unfold parse at h
  split at h
  · cases h
  · cases h
  next raw hread =>
    rw [Outcome.mapError_eq_ok] at h
    cases raw with
    | mapping entries =>
      by_cases hdescribes : Describes entries
      · obtain ⟨config', hok, hreads⟩ := ofYaml_reads hdescribes (FilePath.resolve current base)
        cases h.symm.trans hok
        exact ⟨entries, hread, hdescribes, hreads⟩
      · rw [ofYaml_mapping, if_neg (by rwa [List.isEmpty_iff, problems_eq_nil_iff])] at h
        cases h
    | _ => cases h

/-- Whatever data a reader makes of the text, there is a configuration just if they describe one,
and then it is the one that they describe, with paths from the base, which itself starts at the
working directory. Otherwise everything that is wrong with the data is reported, once and in
order. -/
theorem parse_reports (hread : read text = .ok raw) :
    ((∃ config, parse read current base text = .ok config) ↔
      ∃ entries, raw = .mapping entries ∧ Describes entries) ∧
    (∀ config entries, parse read current base text = .ok config → raw = .mapping entries →
      Reads (FilePath.resolve current base) entries config) ∧
    ((∀ entries, raw ≠ .mapping entries) → parse read current base text =
      .error (.invalid ⟨[.error "" "Configuration must be a mapping" none]⟩)) ∧
    ∀ entries, raw = .mapping entries → ¬Describes entries →
      ∃ violations : List Violation,
        parse read current base text =
          .error (.invalid ⟨violations.map Violation.diagnostic⟩) ∧
        (∀ v, v ∈ violations ↔ v.Holds entries) ∧ violations.Pairwise Violation.Before ∧
        violations.Nodup := by
  have hparse : parse read current base text =
      (ofYaml (FilePath.resolve current base) raw).mapError .invalid := by rw [parse, hread]
  refine ⟨⟨?_, ?_⟩, ?_, ?_, ?_⟩
  · rintro ⟨config, hconfig⟩
    obtain ⟨entries, hread', h, -⟩ := of_parse_eq_ok hconfig
    exact ⟨entries, Except.ok.inj (hread.symm.trans hread'), h⟩
  · rintro ⟨entries, rfl, h⟩
    obtain ⟨config, hok, -⟩ := ofYaml_reads h (FilePath.resolve current base)
    exact ⟨config, by rw [hparse, hok]; rfl⟩
  · rintro config entries hconfig rfl
    obtain ⟨entries', hread', -, hreads⟩ := of_parse_eq_ok hconfig
    cases hread.symm.trans hread'
    exact hreads
  · intro hmapping
    rw [hparse]
    cases raw with
    | mapping entries => exact absurd rfl (hmapping entries)
    | _ => rfl
  · rintro entries rfl h
    obtain ⟨violations, hproblems, hviolations, hsorted⟩ :=
      exists_violations (FilePath.resolve current base) entries
    refine ⟨violations, ?_, hviolations, hsorted, Violation.nodup_of_pairwise hsorted⟩
    rw [hparse, ofYaml_mapping, if_neg (by rwa [List.isEmpty_iff, problems_eq_nil_iff]), hproblems]
    rfl

/-- The entries of a text with an unknown key, without schemas and with a section that is no
mapping. -/
def flawedEntries : List (String × Yaml) :=
  [("a", .number (.integral 1)), ("watch", .number (.integral 2))]

theorem read_flawed : Yaml.read "a: 1\nwatch: 2\n" = .ok (.mapping flawedEntries) := rfl

theorem parse_reports_flawed :
    Yaml.read "a: 1\nwatch: 2\n" = .ok (.mapping flawedEntries) ∧ ¬Describes flawedEntries ∧
    ∃ violations : List Violation,
      parse Yaml.read "/work" "conf" "a: 1\nwatch: 2\n" =
        .error (.invalid ⟨violations.map Violation.diagnostic⟩) ∧
      violations.Nodup ∧ .unknownKey 0 "a" ∈ violations ∧ .noSchemas ∈ violations ∧
      .noMapping .watch ∈ violations := by
  have hkey : (Violation.unknownKey 0 "a").Holds flawedEntries := .unknownKey rfl (by decide)
  have hschemas : Violation.noSchemas.Holds flawedEntries := .noSchemas nofun
  have hwatch : (Violation.noMapping .watch).Holds flawedEntries := .noMapping rfl nofun nofun
  have hnot : ¬Describes flawedEntries := fun h => describes_iff.mp h _ hkey
  obtain ⟨-, -, -, hreports⟩ := @parse_reports "conf" _ _ Yaml.read "/work" read_flawed
  obtain ⟨violations, hparse, hviolations, -, hnodup⟩ := hreports _ rfl hnot
  exact ⟨read_flawed, hnot, violations, hparse, hnodup, (hviolations _).mpr hkey,
    (hviolations _).mpr hschemas, (hviolations _).mpr hwatch⟩

end Config

end Schemata
