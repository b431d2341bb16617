import Schemata.Proofs.Declarations.Imports
import Schemata.Proofs.Model.Naming
import Schemata.Proofs.Text.Pieces

/-!
# What a declaration file says

A declaration file is read line by line (`SourceFile.ofText`): import lines give the names that are
imported and the module they are from, an interface is a header with the property lines that follow
it, and a union is a header with the member lines that follow it. All other lines say nothing about
types.

Where names are words, the text of a module is read as it was meant (`ofText_moduleText`): the file
imports `imports`, has an interface for each alternative of each type and a union for each sum.
-/

namespace Schemata.Declarations

/-- The type that is written for a property: a quoted text, or a name with its mark. -/
inductive TypeExpr where
  | literal (text : String)
  | named (name : String) (multiplicity : Multiplicity)
deriving DecidableEq, Repr

/-- What a line says. -/
inductive Line where
  | imports (names : List String) (module : String)
  | interface (name : String)
  | property (name : String) (type : TypeExpr)
  | union (name : String)
  | member (name : String)
  | other
deriving DecidableEq, Repr

/-- An interface with its properties in order. -/
structure Interface where
  name : String
  properties : List (String × TypeExpr)
deriving DecidableEq, Repr

/-- A union with the names of its members in order. -/
structure Union where
  name : String
  members : List String
deriving DecidableEq, Repr

/-- What a file imports, each time with the module it is from, and what it declares. -/
structure SourceFile where
  imports : List (String × List String)
  interfaces : List Interface
  unions : List Union
deriving DecidableEq, Repr

/-! ## Lines -/

/-- What stands between a beginning and an end. -/
def between? (front back : String) (line : List Char) : Option (List Char) :=
  (front.toList.isPrefixOf? line).bind back.toList.isSuffixOf?

/-- The parts before and behind the first occurrence of a mark. -/
def cutAt (mark : Char) (cs : List Char) : List Char × List Char :=
  (cs.takeWhile (· ≠ mark), (cs.dropWhile (· ≠ mark)).drop 1)

def TypeExpr.ofChars (cs : List Char) : TypeExpr :=
  match between? "\"" "\"" cs, between? "" "[]" cs, between? "" " | null" cs with
  | some text, _, _ => .literal (String.ofList text)
  | none, some name, _ => .named (String.ofList name) .repeated
  | none, none, some name => .named (String.ofList name) .optional
  | none, none, none => .named (String.ofList cs) .single

/-- Names with commas between them, blanks apart. -/
def namesOf (cs : List Char) : List String :=
  ((cs.filter (· ≠ ' ')).splitOn ',').map String.ofList

def Line.import? (line : List Char) : Option Line :=
  (between? "import type \x7b" ".types.js\";" line).bind fun cs =>
    let (names, rest) := cutAt '\x7d' cs
    (between? " from \"./" "" rest).map fun module => imports (namesOf names) (String.ofList module)

def Line.interface? (line : List Char) : Option Line :=
  (between? "export interface " " \x7b" line).map fun name => interface (String.ofList name)

def Line.union? (line : List Char) : Option Line :=
  (between? "export type " " =" line).map fun name => union (String.ofList name)

def Line.property? (line : List Char) : Option Line :=
  (between? "  readonly " ";" line).map fun cs =>
    let (name, type) := cutAt ':' cs
    property (String.ofList name) (.ofChars (type.drop 1))

/-- The last member ends the union. -/
def Line.member? (line : List Char) : Option Line :=
  ((between? "  | " ";" line).or (between? "  | " "" line)).map fun name =>
    member (String.ofList name)

def Line.ofChars (line : List Char) : Line :=
  ((import? line).or ((interface? line).or ((union? line).or
    ((property? line).or (member? line))))).getD other

/-! ## Files -/

/-- The properties at the beginning of lines. -/
def properties : List Line → List (String × TypeExpr)
  | .property name type :: lines => (name, type) :: properties lines
  | _ => []

def interfaces : List Line → List Interface
  | [] => []
  | .interface name :: lines => ⟨name, properties lines⟩ :: interfaces lines
  | _ :: lines => interfaces lines

/-- The members at the beginning of lines. -/
def members : List Line → List String
  | .member name :: lines => name :: members lines
  | _ => []

def unions : List Line → List Union
  | [] => []
  | .union name :: lines => ⟨name, members lines⟩ :: unions lines
  | _ :: lines => unions lines

def SourceFile.ofLines (lines : List Line) : SourceFile where
  imports := lines.filterMap fun
    | .imports names module => some (module, names)
    | _ => none
  interfaces := Declarations.interfaces lines
  unions := Declarations.unions lines

/-- What a text says, read line by line. -/
def SourceFile.ofText (text : String) : SourceFile :=
  ofLines ((text.toList.splitOn '\n').map Line.ofChars)

/-! ## What is meant -/

/-- The alternatives of a type, in order. -/
def alternatives (t : TypeDef) : List (Option Constructor) :=
  match t.shape with
  | .product _ => [none]
  | .sum constructors _ => constructors.map some

/-- The property of a field. -/
def propertyOf (f : Field) : String × TypeExpr := (f.name, .named (typeText f.type) f.multiplicity)

/-- The interface of an alternative of a type. -/
def interfaceOf (t : TypeDef) : Option Constructor → Interface
  | some c => ⟨interfaceName t c, ("_type", .literal c.name) :: c.fields.map propertyOf⟩
  | none => ⟨t.name, t.fields.map propertyOf⟩

/-- The unions of the sum types of a module. -/
def sumUnions (m : Module) : List Union :=
  (m.types.filter (·.kind = .sum)).map fun t => ⟨t.name, t.constructors.map (interfaceName t)⟩

/-- The names of the module, and of all that it refers to, are words. -/
structure Worded (m : Module) : Prop where
  name : Token.IsWord m.name
  named : m.Named
  references : ∀ t ∈ m.types, ∀ k, t.Mentions k → Token.IsWord k.module ∧ Token.IsWord k.name

/-! ## Reading single lines -/

variable {name type front back : String} {cs ds line : List Char} {mark : Char}

theorem between?_eq_some :
    between? front back line = some cs ↔ line = front.toList ++ (cs ++ back.toList) := by
  unfold between?
  simp only [Option.bind_eq_some_iff, List.isPrefixOf?_eq_some_iff_append_eq,
    List.isSuffixOf?_eq_some_iff_append_eq]
  constructor
  · rintro ⟨_, rfl, rfl⟩
    rfl
  · rintro rfl
    exact ⟨_, rfl, rfl⟩

theorem between?_eq_none {c : Char} (hc : c ∈ front.toList ++ back.toList) (h : c ∉ line) :
    between? front back line = none := by
  refine Option.eq_none_iff_forall_not_mem.mpr fun cs hcs => h ?_
  rw [between?_eq_some.mp hcs]
  simp only [List.mem_append] at hc ⊢
  tauto

theorem cutAt_append (h : mark ∉ cs) : cutAt mark (cs ++ mark :: ds) = (cs, ds) := by
  have hcs : ∀ c ∈ cs, decide (c ≠ mark) = true := fun c hc =>
    decide_eq_true fun heq => h (heq ▸ hc)
  rw [cutAt, List.takeWhile_append_of_pos hcs, List.dropWhile_append_of_pos hcs]
  simp

/-- The mark behind the type of a property. -/
def suffix : Multiplicity → String
  | .repeated => "[]"
  | .optional => " | null"
  | .single => ""

/-- A name with a mark is read as written. -/
theorem typeExpr_ofChars (h : Token.IsWord name) (m : Multiplicity) :
    TypeExpr.ofChars (name.toList ++ (suffix m).toList) = .named name m := by
  have hquote : '"' ∉ name.toList := h.notMem (by decide)
  have hbracket : '[' ∉ name.toList := h.notMem (by decide)
  have hbar : '|' ∉ name.toList := h.notMem (by decide)
  have hliteral : between? "\"" "\"" (name.toList ++ (suffix m).toList) = none := by
    refine between?_eq_none (c := '"') (by simp) ?_
    cases m <;> simpa [suffix] using hquote
  unfold TypeExpr.ofChars
  rw [hliteral]
  cases m with
  | repeated =>
    have hmarked : between? "" "[]" (name.toList ++ (suffix .repeated).toList) = some name.toList :=
      between?_eq_some.mpr rfl
    rw [hmarked]
    simp
  | optional =>
    have hmarked : between? "" " | null" (name.toList ++ (suffix .optional).toList) =
      some name.toList := between?_eq_some.mpr rfl
    rw [between?_eq_none (c := '[') (by simp) (by simpa [suffix] using hbracket), hmarked]
    simp
  | single =>
    rw [between?_eq_none (c := '[') (by simp) (by simpa [suffix] using hbracket),
      between?_eq_none (c := '|') (by simp) (by simpa [suffix] using hbar)]
    simp [suffix]

theorem ofChars_fieldLine {f : Field} (hname : Token.IsWord f.name)
    (htype : Token.IsWord (typeText f.type)) :
    Line.ofChars (fieldLine f).toList =
      .property f.name (.named (typeText f.type) f.multiplicity) := by
  have hline : (fieldLine f).toList = "  readonly ".toList ++
      ((f.name.toList ++ ':' :: ' ' ::
        ((typeText f.type).toList ++ (suffix f.multiplicity).toList)) ++ ";".toList) := by
    unfold fieldLine
    cases f.multiplicity <;> simp [suffix]
  have hproperty : Line.property? (fieldLine f).toList =
      some (.property f.name (.named (typeText f.type) f.multiplicity)) := by
    rw [Line.property?, hline, between?_eq_some.mpr rfl]
    simp only [Option.map_some, cutAt_append (hname.notMem (c := ':') (by decide)),
      List.drop_succ_cons, List.drop_zero, typeExpr_ofChars htype, String.ofList_toList]
  rw [Line.ofChars, hproperty, hline]
  rfl

theorem ofChars_discriminant (label : String) :
    Line.ofChars ("  readonly _type: \"" ++ label ++ "\";").toList =
      .property "_type" (.literal label) := by
  have hline : ("  readonly _type: \"" ++ label ++ "\";").toList = "  readonly ".toList ++
      (("_type".toList ++ ':' :: ' ' :: ("\"".toList ++ (label.toList ++ "\"".toList))) ++
        ";".toList) := by
    simp
  have hproperty : Line.property? ("  readonly _type: \"" ++ label ++ "\";").toList =
      some (.property "_type" (.literal label)) := by
    rw [Line.property?, hline, between?_eq_some.mpr rfl]
    simp only [Option.map_some, cutAt_append (show ':' ∉ "_type".toList by simp),
      List.drop_succ_cons, List.drop_zero, TypeExpr.ofChars, between?_eq_some.mpr rfl,
      String.ofList_toList]
  rw [Line.ofChars, hproperty, hline]
  rfl

theorem ofChars_interface (name : String) :
    Line.ofChars ("export interface " ++ name ++ " \x7b").toList = .interface name := by
  have hline : ("export interface " ++ name ++ " \x7b").toList =
      "export interface ".toList ++ (name.toList ++ " \x7b".toList) := by
    simp
  rw [Line.ofChars, hline, Line.interface?, between?_eq_some.mpr rfl]
  show Line.interface (String.ofList name.toList) = _
  rw [String.ofList_toList]

theorem ofChars_union (name : String) :
    Line.ofChars ("export type " ++ name ++ " =").toList = .union name := by
  have hline : ("export type " ++ name ++ " =").toList =
      "export type ".toList ++ (name.toList ++ " =".toList) := by
    simp
  rw [Line.ofChars, hline, Line.union?, between?_eq_some.mpr rfl]
  show Line.union (String.ofList name.toList) = _
  rw [String.ofList_toList]

/-- Words with commas and blanks between them are read as these words. -/
theorem namesOf_intercalate {names : List String} (hne : names ≠ [])
    (h : ∀ name ∈ names, Token.IsWord name) :
    namesOf (' ' :: ([',', ' '].intercalate (names.map String.toList) ++ [' '])) = names := by
  have hblank : ∀ cs ∈ names.map String.toList, cs.filter (· ≠ ' ') = cs := by
    refine List.forall_mem_map.mpr fun name hname => List.filter_eq_self.mpr fun c hc => ?_
    exact decide_eq_true fun heq => (h name hname).notMem (c := ' ') (by decide) (heq ▸ hc)
  have hcomma : ∀ cs ∈ names.map String.toList, ',' ∉ cs :=
    List.forall_mem_map.mpr fun name hname => (h name hname).notMem (by decide)
  have hfilter : ([',', ' '].intercalate (names.map String.toList)).filter (· ≠ ' ') =
      [','].intercalate (names.map String.toList) := by
    generalize names.map String.toList = texts at hblank
    cases texts with
    | nil => rfl
    | cons a texts =>
      obtain ⟨ha, htexts⟩ := List.forall_mem_cons.mp hblank
      rw [Text.intercalate_cons, Text.intercalate_cons, List.filter_append, ha, List.filter_flatMap]
      congr 1
      refine List.flatMap_congr fun b hb => ?_
      rw [List.filter_append, htexts b hb]
      rfl
  have hmap : names.map String.toList ≠ [] := by simpa using hne
  rw [namesOf, List.filter_cons_of_neg (by simp), List.filter_append, hfilter,
    List.filter_cons_of_neg (by simp), List.filter_nil, List.append_nil,
    List.splitOn_intercalate _ hcomma hmap, List.map_map]
  simp

theorem toList_importLine (module : String) (names : List String) :
    (importLine (module, names)).toList = "import type \x7b".toList ++
      ((' ' :: ([',', ' '].intercalate (names.map String.toList) ++ [' ']) ++ '\x7d' ::
        (" from \"./".toList ++ (module.toList ++ "".toList))) ++ ".types.js\";".toList) := by
  have hdef : importLine (module, names) = "import type \x7b " ++ ", ".intercalate names ++
      " \x7d from \"./" ++ module ++ ".types.js\";" := rfl
  have hopen : "import type \x7b ".toList = "import type \x7b".toList ++ [' '] := rfl
  have hclose : " \x7d from \"./".toList = ' ' :: '\x7d' :: " from \"./".toList := rfl
  have hcomma : ", ".toList = [',', ' '] := rfl
  rw [hdef]
  simp only [String.toList_append, String.toList_intercalate, String.toList_empty, hopen, hclose,
    hcomma, List.append_assoc, List.cons_append, List.nil_append, List.append_nil]

theorem ofChars_importLine {module : String} {names : List String} (hne : names ≠ [])
    (h : ∀ name ∈ names, Token.IsWord name) :
    Line.ofChars (importLine (module, names)).toList = .imports names module := by
  have hbrace : '\x7d' ∉ ' ' :: ([',', ' '].intercalate (names.map String.toList) ++ [' ']) := by
    intro hmem
    simp only [List.mem_cons, List.mem_append, List.not_mem_nil, or_false] at hmem
    rcases hmem with heq | hmem | heq
    · exact absurd heq (by decide)
    · rcases Text.mem_intercalate hmem with hmem | ⟨cs, hcs, hmem⟩
      · exact absurd hmem (by decide)
      · obtain ⟨name, hname, rfl⟩ := List.mem_map.mp hcs
        exact (h name hname).notMem (by decide) hmem
    · exact absurd heq (by decide)
  have himport : Line.import? (importLine (module, names)).toList =
      some (.imports names module) := by
    rw [Line.import?, toList_importLine, between?_eq_some.mpr rfl, Option.bind_some]
    dsimp only
    rw [cutAt_append hbrace, between?_eq_some.mpr rfl, Option.map_some, namesOf_intercalate hne h,
      String.ofList_toList]
  rw [Line.ofChars, himport]
  rfl

/-- A line that ends with a comma declares no property. -/
theorem property?_concat_comma (cs : List Char) : Line.property? (cs ++ [',']) = none := by
  refine Option.map_eq_none_iff.mpr (Option.eq_none_iff_forall_not_mem.mpr fun ds hds => ?_)
  have hline := between?_eq_some.mp hds
  rw [← List.append_assoc] at hline
  have hlast := (List.append_inj' hline rfl).2
  exact absurd hlast (by decide)

theorem member?_eq_none (h : ¬"  | ".toList <+: cs) : Line.member? cs = none := by
  have hnone : ∀ back, between? "  | " back cs = none := fun back =>
    Option.eq_none_iff_forall_not_mem.mpr fun _ hds => h ⟨_, (between?_eq_some.mp hds).symm⟩
  rw [Line.member?, hnone, hnone]
  rfl

theorem ofChars_tagLine {c : Constructor} (hc : Token.IsWord c.name) :
    Line.ofChars ("  " ++ c.name ++ ": " ++ toString c.tag ++ ",").toList = .other := by
  have hline : ("  " ++ c.name ++ ": " ++ toString c.tag ++ ",").toList =
      "  ".toList ++ (c.name.toList ++ (": ".toList ++ (toString c.tag).toList)) ++ [','] := by
    simp
  have hmember : Line.member? ("  ".toList ++ (c.name.toList ++ (": ".toList ++
      (toString c.tag).toList)) ++ [',']) = none := by
    have hbar : '|' ∉ c.name.toList := hc.notMem (by decide)
    obtain ⟨first, rest, hname, -, -⟩ := hc
    refine member?_eq_none ?_
    rintro ⟨ds, hds⟩
    simp only [hname, List.append_assoc, List.cons_append] at hds
    have hfirst : '|' = first := (List.cons.inj (List.cons.inj (List.cons.inj hds).2).2).1
    exact hbar (hname ▸ hfirst ▸ List.mem_cons_self)
  rw [Line.ofChars, hline, property?_concat_comma, hmember]
  rfl

theorem ofChars_member_last (name : String) :
    Line.ofChars ("  | " ++ name ++ ";").toList = .member name := by
  have hline : ("  | " ++ name ++ ";").toList = "  | ".toList ++ (name.toList ++ ";".toList) := by
    simp
  rw [Line.ofChars, hline, Line.member?, between?_eq_some.mpr rfl]
  show Line.member (String.ofList name.toList) = _
  rw [String.ofList_toList]

theorem ofChars_member_inner (h : ';' ∉ name.toList) :
    Line.ofChars ("  | " ++ name).toList = .member name := by
  have hline : ("  | " ++ name).toList = "  | ".toList ++ (name.toList ++ "".toList) := by
    simp
  have hlast : between? "  | " ";" ("  | ".toList ++ (name.toList ++ "".toList)) = none :=
    between?_eq_none (c := ';') (by simp) (by simpa using h)
  rw [Line.ofChars, hline, Line.member?, hlast, between?_eq_some.mpr rfl]
  show Line.member (String.ofList name.toList) = _
  rw [String.ofList_toList]

/-- The lines of a union are read as its members. -/
theorem map_memberLines {names : List String} (h : ∀ name ∈ names, ';' ∉ name.toList) :
    (memberLines names).map (fun line => Line.ofChars line.toList) = names.map .member := by
  induction names with
  | nil => rfl
  | cons name names ih =>
    obtain ⟨hname, hnames⟩ := List.forall_mem_cons.mp h
    cases names with
    | nil => rw [memberLines, List.map_singleton, ofChars_member_last, List.map_singleton]
    | cons next names =>
      have hcons : memberLines (name :: next :: names) =
        ("  | " ++ name) :: memberLines (next :: names) := rfl
      rw [hcons, List.map_cons, ofChars_member_inner hname, ih hnames]
      rfl

/-! ## Reading blocks of lines -/

/-- What two files say together. -/
instance : Append SourceFile :=
  ⟨fun a b => ⟨a.imports ++ b.imports, a.interfaces ++ b.interfaces, a.unions ++ b.unions⟩⟩

@[simp] theorem SourceFile.mk_append_mk (is is' : List (String × List String))
    (js js' : List Interface) (us us' : List Union) :
    SourceFile.mk is js us ++ SourceFile.mk is' js' us' = ⟨is ++ is', js ++ js', us ++ us'⟩ := rfl

/-- Lines that say what is said in the file, and do not go on with an interface or a union that
stands before them. -/
structure Says (lines : List Line) (file : SourceFile) : Prop where
  properties : properties lines = []
  members : members lines = []
  eq : SourceFile.ofLines lines = file

/-- The lines of an interface. -/
def Interface.lines (i : Interface) : List Line :=
  .interface i.name :: i.properties.map (fun p => .property p.1 p.2) ++ [.other]

/-- The lines of a union. -/
def Union.lines (u : Union) : List Line :=
  .union u.name :: u.members.map .member ++ [.other]

variable {a b : List Line} {file file' : SourceFile}

theorem properties_append (h : properties b = []) : properties (a ++ b) = properties a := by
  induction a with
  | nil => exact h
  | cons line a ih =>
    cases line with
    | property name type => exact congrArg ((name, type) :: ·) ih
    | _ => rfl

theorem interfaces_append (h : properties b = []) :
    interfaces (a ++ b) = interfaces a ++ interfaces b := by
  induction a with
  | nil => rfl
  | cons line a ih =>
    cases line with
    | interface name =>
      rw [List.cons_append, interfaces, interfaces, properties_append h, ih, List.cons_append]
    | _ => exact ih

theorem members_append (h : members b = []) : members (a ++ b) = members a := by
  induction a with
  | nil => exact h
  | cons line a ih =>
    cases line with
    | member name => exact congrArg (name :: ·) ih
    | _ => rfl

theorem unions_append (h : members b = []) : unions (a ++ b) = unions a ++ unions b := by
  induction a with
  | nil => rfl
  | cons line a ih =>
    cases line with
    | union name => rw [List.cons_append, unions, unions, members_append h, ih, List.cons_append]
    | _ => exact ih

namespace Says

theorem append (ha : Says a file) (hb : Says b file') : Says (a ++ b) (file ++ file') where
  properties := (properties_append hb.properties).trans ha.properties
  members := (members_append hb.members).trans ha.members
  eq := by
    rw [← ha.eq, ← hb.eq, SourceFile.ofLines, interfaces_append hb.properties,
      unions_append hb.members, List.filterMap_append]
    rfl

theorem nil : Says [] ⟨[], [], []⟩ := ⟨rfl, rfl, rfl⟩

/-- What is declared block by block. -/
theorem flatMap {α : Type} {as : List α} {f : α → List Line} {is : α → List Interface}
    {us : α → List Union} (h : ∀ a ∈ as, Says (f a) ⟨[], is a, us a⟩) :
    Says (as.flatMap f) ⟨[], as.flatMap is, as.flatMap us⟩ := by
  induction as with
  | nil => exact nil
  | cons a as ih =>
    obtain ⟨ha, has⟩ := List.forall_mem_cons.mp h
    exact ha.append (ih has)

theorem other : Says [.other] ⟨[], [], []⟩ := ⟨rfl, rfl, rfl⟩

theorem of_other (h : ∀ line ∈ a, line = .other) : Says a ⟨[], [], []⟩ := by
  induction a with
  | nil => exact nil
  | cons line a ih =>
    obtain ⟨rfl, ha⟩ := List.forall_mem_cons.mp h
    exact other.append (ih ha)

theorem imports (entries : List (String × List String)) :
    Says (entries.map fun entry => .imports entry.2 entry.1) ⟨entries, [], []⟩ := by
  induction entries with
  | nil => exact nil
  | cons entry entries ih =>
    have hentry : Says [.imports entry.2 entry.1] ⟨[entry], [], []⟩ := ⟨rfl, rfl, rfl⟩
    exact hentry.append ih

theorem interface (i : Interface) : Says i.lines ⟨[], [i], []⟩ := by
  obtain ⟨name, ps⟩ := i
  have hproperties : Declarations.properties
      (ps.map (fun p => Line.property p.1 p.2) ++ [.other]) = ps := by
    induction ps with
    | nil => rfl
    | cons p ps ih => exact congrArg (p :: ·) ih
  have hrest : SourceFile.ofLines (ps.map (fun p => Line.property p.1 p.2) ++ [.other]) =
      ⟨[], [], []⟩ := by
    clear hproperties
    induction ps with
    | nil => rfl
    | cons p ps ih => exact ih
  have hcons (lines : List Line) : SourceFile.ofLines (.interface name :: lines) =
      ⟨(SourceFile.ofLines lines).imports,
        ⟨name, Declarations.properties lines⟩ :: (SourceFile.ofLines lines).interfaces,
        (SourceFile.ofLines lines).unions⟩ := rfl
  refine ⟨rfl, rfl, ?_⟩
  rw [Interface.lines, List.cons_append, hcons, hproperties, hrest]

theorem union (u : Union) : Says u.lines ⟨[], [], [u]⟩ := by
  obtain ⟨name, names⟩ := u
  have hmembers : Declarations.members (names.map .member ++ [.other]) = names := by
    induction names with
    | nil => rfl
    | cons member names ih => exact congrArg (member :: ·) ih
  have hrest : SourceFile.ofLines (names.map .member ++ [.other]) = ⟨[], [], []⟩ := by
    clear hmembers
    induction names with
    | nil => rfl
    | cons member names ih => exact ih
  have hcons (lines : List Line) : SourceFile.ofLines (.union name :: lines) =
      ⟨(SourceFile.ofLines lines).imports, (SourceFile.ofLines lines).interfaces,
        ⟨name, Declarations.members lines⟩ :: (SourceFile.ofLines lines).unions⟩ := rfl
  refine ⟨rfl, rfl, ?_⟩
  rw [Union.lines, List.cons_append, hcons, hmembers, hrest]

end Says

/-! ## Reading a module -/

variable {t : TypeDef} {c : Option Constructor} {M : Module}

/-- The names of the fields, and those of their types, are words. -/
def Readable (fields : List Field) : Prop :=
  ∀ f ∈ fields, Token.IsWord f.name ∧ Token.IsWord (typeText f.type)

theorem map_fieldLine {fields : List Field} (h : Readable fields) :
    (fields.map fieldLine).map (fun line => Line.ofChars line.toList) =
      (fields.map propertyOf).map fun p => .property p.1 p.2 := by
  rw [List.map_map, List.map_map]
  exact List.map_congr_left fun f hf => ofChars_fieldLine (h f hf).1 (h f hf).2

theorem map_constructorLines {c : Constructor} (h : Readable c.fields) :
    (constructorLines t c).map (fun line => Line.ofChars line.toList) =
      (interfaceOf t (some c)).lines ++ [.other] := by
  simp only [constructorLines, List.map_append, map_fieldLine h, List.map_cons, List.map_nil,
    ofChars_interface, ofChars_discriminant, interfaceOf, Interface.lines]
  simp only [List.append_assoc, List.cons_append, List.nil_append]
  rfl

theorem map_productLines {fields : List Field} (hshape : t.shape = .product fields)
    (h : Readable fields) :
    (productLines t fields).map (fun line => Line.ofChars line.toList) =
      (interfaceOf t none).lines := by
  have hfields : t.fields = fields := by rw [TypeDef.fields, hshape]
  simp only [productLines, List.map_append, map_fieldLine h, List.map_cons, List.map_nil,
    ofChars_interface, interfaceOf, Interface.lines, hfields]
  rfl

/-- What the declarations of a sum type say. -/
theorem says_sumLines {cs : List Constructor} (ht : Token.IsWord t.name)
    (hcs : ∀ c ∈ cs, Token.IsWord c.name) (h : ∀ c ∈ cs, Readable c.fields) :
    Says ((sumLines t cs).map fun line => Line.ofChars line.toList)
      ⟨[], cs.map fun c => interfaceOf t (some c), [⟨t.name, cs.map (interfaceName t)⟩]⟩ := by
  have hconstructors : Says
      (cs.flatMap fun c => (constructorLines t c).map fun line => Line.ofChars line.toList)
      ⟨[], cs.map fun c => interfaceOf t (some c), []⟩ := by
    have hnil : cs.flatMap (fun _ => ([] : List Union)) = [] :=
      List.flatMap_eq_nil_iff.mpr fun _ _ => rfl
    rw [List.map_eq_flatMap, ← hnil]
    refine Says.flatMap fun c hc => ?_
    rw [map_constructorLines (h c hc)]
    exact (Says.interface _).append .other
  have hmembers : ((["export type " ++ t.name ++ " ="] ++
      memberLines (cs.map (interfaceName t))) ++ [""]).map (fun line => Line.ofChars line.toList) =
        Union.lines ⟨t.name, cs.map (interfaceName t)⟩ := by
    have hnames : ∀ name ∈ cs.map (interfaceName t), ';' ∉ name.toList := by
      refine List.forall_mem_map.mpr fun c hc => ?_
      have hname : ';' ∉ t.name.toList := ht.notMem (by decide)
      have hconstructor : ';' ∉ c.name.toList := (hcs c hc).notMem (by decide)
      simp [interfaceName, hname, hconstructor]
    rw [List.map_append, List.map_append, map_memberLines hnames, List.map_singleton,
      ofChars_union, List.map_singleton]
    rfl
  have htable : ∀ line ∈ (["export const " ++ t.name ++ "_e = \x7b"] ++
      (cs.map (fun c => "  " ++ c.name ++ ": " ++ toString c.tag ++ ",") ++
        ["\x7d as const;"])).map (fun line => Line.ofChars line.toList), line = .other := by
    simp only [List.map_append, List.forall_mem_append, List.forall_mem_map, List.forall_mem_cons,
      List.map_cons, List.map_nil]
    refine ⟨⟨?_, by simp⟩, fun c hc => ofChars_tagLine (hcs c hc), rfl, by simp⟩
    simp only [String.toList_append]
    rfl
  have hunion := Says.union ⟨t.name, cs.map (interfaceName t)⟩
  rw [← hmembers] at hunion
  have hall := (hconstructors.append hunion).append (.of_other htable)
  simp only [SourceFile.mk_append_mk, List.append_nil, List.nil_append] at hall
  simpa only [sumLines, List.append_assoc, List.map_append, List.map_flatMap, List.map_cons,
    List.map_nil, List.cons_append, List.nil_append] using hall

/-- What the declarations of a type say. -/
theorem says_typeLines (ht : t.Named)
    (h : ∀ c, t.Alternative c → Readable (Construct.declared t c)) :
    Says ((typeLines t ++ [""]).map fun line => Line.ofChars line.toList)
      ⟨[], (alternatives t).map (interfaceOf t), if t.kind = .sum then
        [⟨t.name, t.constructors.map (interfaceName t)⟩] else []⟩ := by
  have hblank : Says [Line.ofChars "".toList] ⟨[], [], []⟩ := ⟨rfl, rfl, rfl⟩
  have hconstructors := ht.constructors
  rw [List.map_append]
  unfold typeLines alternatives TypeDef.kind TypeDef.constructors at *
  cases hshape : t.shape with
  | product fields =>
    have hreadable : Readable fields := by
      have := h none (.product hshape)
      rwa [Construct.declared, TypeDef.fields, hshape] at this
    dsimp only
    rw [map_productLines hshape hreadable]
    exact (Says.interface _).append hblank
  | sum cs attributes =>
    rw [hshape] at hconstructors
    have hsum := (says_sumLines ht.word hconstructors
      fun c hc => h _ (.sum hshape hc)).append hblank
    rw [SourceFile.mk_append_mk, List.append_nil, List.append_nil, List.append_nil] at hsum
    simp only [List.map_map, TypeShape.kind, if_true]
    exact hsum

theorem isWord_typeText {type : TypeRef} (h : ∀ k, type = .declared k → Token.IsWord k.name) :
    Token.IsWord (typeText type) := by
  cases type with
  | declared k => exact h k rfl
  | primitive p =>
    cases p with
    | string => exact ⟨'s', "tring".toList, rfl, rfl, List.all_eq_true.mp rfl⟩
    | int => exact ⟨'n', "umber".toList, rfl, rfl, List.all_eq_true.mp rfl⟩
    | bool => exact ⟨'b', "oolean".toList, rfl, rfl, List.all_eq_true.mp rfl⟩

theorem Worded.readable (h : Worded M) (ht : t ∈ M.types) {c : Option Constructor}
    (hc : t.Alternative c) : Readable (Construct.declared t c) := by
  refine fun f hf => ⟨(h.named.types t ht).fields c hc f hf, isWord_typeText fun k hk => ?_⟩
  exact (h.references t ht k (TypeDef.RefersTo.mentions ⟨c, hc, f, hf, hk⟩)).2

theorem Worded.names (h : Worded M) {entry : String × List String} (hentry : entry ∈ imports M) :
    Token.IsWord entry.1 ∧ ∀ name ∈ entry.2, Token.IsWord name := by
  have hforeign : ∀ k ∈ foreignTypes M, Token.IsWord k.module ∧ Token.IsWord k.name := by
    intro k hk
    obtain ⟨-, t, ht, f, hf, htype⟩ := mem_foreignTypes.mp hk
    exact h.references t ht k ⟨f, List.mem_append_left _ hf, htype⟩
  obtain ⟨⟨k, hk, hmodule⟩, -⟩ := mem_imports.mp hentry
  refine ⟨hmodule ▸ (hforeign k hk).1, fun name hname => ?_⟩
  obtain ⟨k, hk, -, rfl⟩ := (mem_names hentry).mp hname
  exact (hforeign k hk).2

theorem sumUnions_eq_flatMap (M : Module) :
    sumUnions M = M.types.flatMap fun t => if t.kind = .sum then
      [⟨t.name, t.constructors.map (interfaceName t)⟩] else [] := by
  unfold sumUnions
  induction M.types with
  | nil => rfl
  | cons t ts ih =>
    rw [List.flatMap_cons, ← ih]
    by_cases h : t.kind = .sum <;> simp [h]

/-- What the lines of a module say. -/
theorem says_moduleLines (h : Worded M) :
    Says ((moduleLines M).map fun line => Line.ofChars line.toList)
      ⟨imports M, M.types.flatMap fun t => (alternatives t).map (interfaceOf t), sumUnions M⟩ := by
  have hheader : ∀ line ∈ ["/**", " * Types for schema module \"" ++ M.name ++ "\"",
      " * Generated by asdl-compile. Do not edit by hand.", " */", ""].map
        (fun line => Line.ofChars line.toList), line = .other := by
    simp only [List.forall_mem_map, List.forall_mem_cons]
    refine ⟨rfl, ?_, rfl, rfl, rfl, by simp⟩
    simp only [String.toList_append]
    rfl
  have himports : Says
      ((if ((imports M).map importLine).isEmpty then [] else (imports M).map importLine ++ [""]).map
        fun line => Line.ofChars line.toList) ⟨imports M, [], []⟩ := by
    have hlines : ((imports M).map importLine).map (fun line => Line.ofChars line.toList) =
        (imports M).map fun entry => .imports entry.2 entry.1 := by
      rw [List.map_map]
      refine List.map_congr_left fun entry hentry => ?_
      exact ofChars_importLine (names_ne_nil hentry) (h.names hentry).2
    cases hempty : imports M with
    | nil => exact .nil
    | cons entry entries =>
      rw [List.map_cons, List.isEmpty_cons, if_neg Bool.false_ne_true, List.map_append,
        ← List.map_cons, ← hempty, hlines]
      have himports := (Says.imports (imports M)).append .other
      rwa [SourceFile.mk_append_mk, List.append_nil, List.append_nil, List.append_nil] at himports
  have htypes := Says.flatMap fun t ht =>
    says_typeLines (h.named.types t ht) fun c hc => h.readable ht hc
  have hall := (Says.of_other hheader).append (himports.append htypes)
  simp only [SourceFile.mk_append_mk, List.append_nil, List.nil_append, ← sumUnions_eq_flatMap]
    at hall
  simpa only [moduleLines, List.append_assoc, List.map_append, List.map_flatMap] using hall

/-! ## Reading a text -/

theorem newline_notMem_toDigits (n : Nat) : '\n' ∉ Nat.toDigits 10 n := fun h =>
  absurd (Nat.isDigit_of_mem_toDigits (by decide) (by decide) h) (by decide)

theorem newline_notMem_fieldLine {fields : List Field} (h : Readable fields) :
    ∀ line ∈ fields.map fieldLine, '\n' ∉ line.toList := by
  refine List.forall_mem_map.mpr fun f hf => ?_
  have hname : '\n' ∉ f.name.toList := (h f hf).1.notMem (by decide)
  have htype : '\n' ∉ (typeText f.type).toList := (h f hf).2.notMem (by decide)
  unfold fieldLine
  cases f.multiplicity <;> simp [hname, htype]

theorem newline_notMem_memberLines {members : List String}
    (h : ∀ member ∈ members, '\n' ∉ member.toList) :
    ∀ line ∈ memberLines members, '\n' ∉ line.toList := by
  induction members with
  | nil => exact fun _ h => by cases h
  | cons member members ih =>
    obtain ⟨hmember, hmembers⟩ := List.forall_mem_cons.mp h
    cases members with
    | nil => simp [memberLines, hmember]
    | cons next members =>
      exact List.forall_mem_cons.mpr ⟨by simp [hmember], ih hmembers⟩

theorem newline_notMem_typeLines (ht : t.Named)
    (h : ∀ c, t.Alternative c → Readable (Construct.declared t c)) :
    ∀ line ∈ typeLines t, '\n' ∉ line.toList := by
  have hname : '\n' ∉ t.name.toList := ht.word.notMem (by decide)
  unfold typeLines
  cases hshape : t.shape with
  | product fields =>
    have hreadable : Readable fields := by
      have := h none (.product hshape)
      rwa [Construct.declared, TypeDef.fields, hshape] at this
    simp only [productLines, List.forall_mem_append, List.forall_mem_singleton]
    exact ⟨⟨by simp [hname], newline_notMem_fieldLine hreadable⟩, by simp⟩
  | sum cs attributes =>
    have hcs : ∀ c ∈ cs, '\n' ∉ c.name.toList := fun c hc =>
      (ht.constructors c (by rwa [TypeDef.constructors, hshape])).notMem (by decide)
    have hmembers : ∀ member ∈ cs.map (interfaceName t), '\n' ∉ member.toList :=
      List.forall_mem_map.mpr fun c hc => by simp [interfaceName, hname, hcs c hc]
    simp only [sumLines, List.forall_mem_append, List.forall_mem_flatMap, List.forall_mem_map,
      List.forall_mem_cons]
    refine ⟨⟨⟨⟨⟨fun c hc => ?_, ?_⟩, newline_notMem_memberLines hmembers⟩, ?_⟩, fun c hc => ?_⟩, ?_⟩
    · simp only [constructorLines, List.forall_mem_append, List.forall_mem_cons]
      have hfields := newline_notMem_fieldLine (h _ (.sum hshape hc))
      have hinterface : '\n' ∉ (interfaceName t c).toList := by
        simp [interfaceName, hname, hcs c hc]
      exact ⟨⟨⟨by simp [hinterface], by simp [hcs c hc], by simp⟩, hfields⟩, by simp⟩
    · simp [hname]
    · simp [hname]
    · simp [hcs c hc, newline_notMem_toDigits]
    · simp

theorem newline_notMem_moduleLines (h : Worded M) :
    ∀ line ∈ moduleLines M, '\n' ∉ line.toList := by
  have hname : '\n' ∉ M.name.toList := h.name.notMem (by decide)
  have himport : ∀ entry ∈ imports M, '\n' ∉ (importLine entry).toList := by
    rintro ⟨module, names⟩ hentry
    obtain ⟨hmodule, hnames⟩ := h.names hentry
    have hmodule : '\n' ∉ module.toList := hmodule.notMem (by decide)
    have hnames : '\n' ∉ [',', ' '].intercalate (names.map String.toList) := by
      intro hmem
      rcases Text.mem_intercalate hmem with hmem | ⟨cs, hcs, hmem⟩
      · exact absurd hmem (by decide)
      · obtain ⟨name, hname, rfl⟩ := List.mem_map.mp hcs
        exact (hnames name hname).notMem (by decide) hmem
    rw [toList_importLine]
    simp [hmodule, hnames]
  simp only [moduleLines, List.forall_mem_append, List.forall_mem_flatMap]
  refine ⟨⟨by simp [hname], ?_⟩, fun t ht => ⟨?_, by simp⟩⟩
  · split_ifs
    · exact fun _ h => by cases h
    · rw [List.forall_mem_append]
      exact ⟨List.forall_mem_map.mpr himport, by simp⟩
  · exact newline_notMem_typeLines (h.named.types t ht) fun c hc => h.readable ht hc

/-- The lines of the text of a module are those that it is made of. -/
theorem splitOn_moduleText (h : Worded M) :
    (moduleText M).toList.splitOn '\n' = (moduleLines M).map String.toList := by
  rw [moduleText, String.toList_intercalate]
  refine List.splitOn_intercalate _ ?_ (by simp [moduleLines])
  exact List.forall_mem_map.mpr (newline_notMem_moduleLines h)

/-- The text of a module is read as it is meant. -/
theorem ofText_moduleText (h : Worded M) :
    SourceFile.ofText (moduleText M) =
      ⟨imports M, M.types.flatMap fun t => (alternatives t).map (interfaceOf t), sumUnions M⟩ := by
  rw [SourceFile.ofText, splitOn_moduleText h, List.map_map]
  exact (says_moduleLines h).eq

end Schemata.Declarations
