import Mathlib.Data.List.Induction
import Schemata.Watch.Args

/-!
# The grammar of arguments

Read from the left, the words of a command line are items: the option with the word behind it, or a
file (`WatchArgs.Spells`). There is at most one way to read them (`WatchArgs.Spells.unique`), and
sorting the words finds it (`WatchArgs.sortWords_eq_some_iff`). So there are arguments just if the
words can be read with one or two files, and only the order of the files and that of the waiting
times count (`WatchArgs.ofWords_spells`).
-/

namespace Schemata.WatchArgs

/-- What words are read as: a waiting time, given by the word behind the option, or a file. -/
inductive Item where
  | delay (word : String)
  | file (name : String)
deriving DecidableEq, Repr

namespace Item

/-- The words of an item. -/
def words : Item → List String
  | delay word => [option, word]
  | file name => [name]

/-- A waiting time is a natural number, and no file has the name of the option. -/
def Valid : Item → Prop
  | delay word => ∃ n : Nat, (Number.ofText word).toInt? = some (n : Int)
  | file name => name ≠ option

def file? : Item → Option String
  | delay _ => none
  | file name => some name

def delay? : Item → Option String
  | delay word => some word
  | file _ => none

end Item

/-- The words are those of the items, one after the other. -/
structure Spells (words : List String) (items : List Item) : Prop where
  words_eq : words = items.flatMap Item.words
  valid : ∀ item ∈ items, item.Valid

/-- The files of items, in order. -/
def files (items : List Item) : List String := items.filterMap Item.file?

/-- The words of the waiting times of items, in order. -/
def delays (items : List Item) : List String := items.filterMap Item.delay?

/-- The last of the waiting times, if there are any. -/
def lastDelay (items : List Item) : Option Number := (delays items).getLast?.map Number.ofText

variable {words before after : List String} {word value : String} {item : Item}
  {items items' : List Item} {sorted sorted' : Sorted} {ms : Number} {args : WatchArgs}

@[simp] theorem files_delay : files (.delay word :: items) = files items := rfl

@[simp] theorem files_file : files (.file word :: items) = word :: files items := rfl

@[simp] theorem delays_delay : delays (.delay word :: items) = word :: delays items := rfl

@[simp] theorem delays_file : delays (.file word :: items) = delays items := rfl

@[simp] theorem files_append : files (items ++ items') = files items ++ files items' :=
  List.filterMap_append

@[simp] theorem delays_append : delays (items ++ items') = delays items ++ delays items' :=
  List.filterMap_append

theorem milliseconds?_eq_some :
    milliseconds? word = some ms ↔ (Item.delay word).Valid ∧ Number.ofText word = ms := by
  have hnat (x : Number) : x.toNat?.isSome ↔ ∃ n : Nat, x.toInt? = some (n : Int) := by
    unfold Number.toNat?
    cases x.toInt? with
    | none => simp
    | some n => cases n <;> simp
  simp only [milliseconds?, Item.Valid, ← hnat, Option.ite_none_right_eq_some, Option.some.injEq]

/-! ## Reading items -/

theorem Spells.nil : Spells [] [] := ⟨rfl, by simp⟩

theorem Spells.cons (hitem : item.Valid) (h : Spells words items) :
    Spells (item.words ++ words) (item :: items) where
  words_eq := by rw [h.words_eq, List.flatMap_cons]
  valid := List.forall_mem_cons.mpr ⟨hitem, h.valid⟩

theorem Spells.append (h : Spells before items) (h' : Spells after items') :
    Spells (before ++ after) (items ++ items') where
  words_eq := by rw [h.words_eq, h'.words_eq, List.flatMap_append]
  valid := List.forall_mem_append.mpr ⟨h.valid, h'.valid⟩

/-- No words are those of no items. -/
theorem Spells.eq_nil (h : Spells [] items) : items = [] := by
  obtain ⟨heq, -⟩ := h
  cases items with
  | nil => rfl
  | cons item items => cases item <;> cases heq

/-- The option is read with the word behind it. -/
theorem Spells.of_option (h : Spells (option :: words) items) :
    ∃ value rest items', words = value :: rest ∧ items = .delay value :: items' ∧
      (Item.delay value).Valid ∧ Spells rest items' := by
  obtain ⟨heq, hvalid⟩ := h
  cases items with
  | nil => cases heq
  | cons item items =>
    obtain ⟨hitem, hitems⟩ := List.forall_mem_cons.mp hvalid
    rw [List.flatMap_cons] at heq
    cases item with
    | delay value => exact ⟨value, _, items, (List.cons.inj heq).2, rfl, hitem, rfl, hitems⟩
    | file name => exact absurd (List.cons.inj heq).1.symm hitem

/-- Any other word is a file. -/
theorem Spells.of_ne_option (hword : word ≠ option) (h : Spells (word :: words) items) :
    ∃ items', items = .file word :: items' ∧ Spells words items' := by
  obtain ⟨heq, hvalid⟩ := h
  cases items with
  | nil => cases heq
  | cons item items =>
    obtain ⟨-, hitems⟩ := List.forall_mem_cons.mp hvalid
    rw [List.flatMap_cons] at heq
    cases item with
    | delay value => exact absurd (List.cons.inj heq).1 hword
    | file name =>
      obtain ⟨rfl, hrest⟩ := List.cons.inj heq
      exact ⟨items, rfl, hrest, hitems⟩

/-- There is one way to read words. -/
theorem Spells.unique (h : Spells words items) (h' : Spells words items') : items = items' := by
  induction items generalizing words items' with
  | nil =>
    obtain ⟨rfl, -⟩ := h
    exact h'.eq_nil.symm
  | cons item items ih =>
    obtain ⟨rfl, hvalid⟩ := h
    obtain ⟨hitem, hitems⟩ := List.forall_mem_cons.mp hvalid
    have hrest : Spells (items.flatMap Item.words) items := ⟨rfl, hitems⟩
    cases item with
    | delay value =>
      obtain ⟨value', _, items', heq, rfl, -, hrest'⟩ := Spells.of_option h'
      obtain ⟨rfl, rfl⟩ := List.cons.inj heq
      rw [ih hrest hrest']
    | file name =>
      obtain ⟨items', rfl, hrest'⟩ := Spells.of_ne_option hitem h'
      rw [ih hrest hrest']

/-- The option is no waiting time. -/
theorem not_valid_option : ¬(Item.delay option).Valid := by
  have hnan : Number.ofText option = .nan := by decide
  rintro ⟨n, hn⟩
  rw [hnan] at hn
  cases hn

/-- Wherever the option stands, it is read with the word behind it. -/
theorem Spells.split_option (h : Spells (before ++ option :: after) items) :
    ∃ value rest front back, after = value :: rest ∧ items = front ++ .delay value :: back ∧
      Spells before front ∧ Spells rest back := by
  induction items generalizing before with
  | nil => simpa using h.words_eq
  | cons item items ih =>
    cases before with
    | nil =>
      obtain ⟨value, rest, back, rfl, heq, -, hback⟩ := h.of_option
      exact ⟨value, rest, [], back, rfl, heq, .nil, hback⟩
    | cons word before =>
      by_cases hword : word = option
      · subst hword
        obtain ⟨value, rest, items', hrest, heq, hvalue, hitems⟩ := h.of_option
        obtain ⟨rfl, rfl⟩ := List.cons.inj heq
        cases before with
        | nil =>
          obtain ⟨rfl, -⟩ := List.cons.inj hrest
          exact absurd hvalue not_valid_option
        | cons _ before =>
          obtain ⟨rfl, rfl⟩ := List.cons.inj hrest
          obtain ⟨value', rest, front, back, rfl, rfl, hfront, hback⟩ := ih hitems
          exact ⟨value', rest, _ :: front, back, rfl, rfl, hfront.cons hvalue, hback⟩
      · obtain ⟨items', heq, hitems⟩ := h.of_ne_option hword
        obtain ⟨rfl, rfl⟩ := List.cons.inj heq
        obtain ⟨value, rest, front, back, rfl, rfl, hfront, hback⟩ := ih hitems
        have hvalid : (Item.file word).Valid := hword
        exact ⟨value, rest, _ :: front, back, rfl, rfl, hfront.cons hvalid, hback⟩

/-- Items are valid if their files and their waiting times are. -/
theorem forall_valid_iff :
    (∀ item ∈ items, item.Valid) ↔
      (∀ name ∈ files items, (Item.file name).Valid) ∧
        ∀ word ∈ delays items, (Item.delay word).Valid := by
  induction items with
  | nil => simp [files, delays]
  | cons item items ih =>
    rw [List.forall_mem_cons, ih]
    cases item <;> simp [and_assoc, and_left_comm]

/-! ## Sorting words -/

/-- What an item adds to sorted words. -/
def Item.sort (sorted : Sorted) (item : Item) : Sorted where
  files := sorted.files ++ item.file?.toList
  debounce := (item.delay?.map Number.ofText).or sorted.debounce

theorem sortWords_words (h : item.Valid) (rest : List String) :
    sortWords sorted (item.words ++ rest) = sortWords (item.sort sorted) rest := by
  cases item with
  | delay word =>
    have hms : milliseconds? word = some (Number.ofText word) := milliseconds?_eq_some.mpr ⟨h, rfl⟩
    show sortWords sorted (option :: word :: rest) = _
    rw [sortWords, if_pos rfl]
    simp only [hms, Item.sort, Item.file?, Item.delay?, Option.toList_none, List.append_nil,
      Option.map_some, Option.some_or]
  | file name =>
    have hname : name ≠ option := h
    show sortWords sorted (name :: rest) = _
    conv_lhs => unfold sortWords
    rw [if_neg hname]
    rfl

theorem foldl_sort (items : List Item) (sorted : Sorted) :
    items.foldl Item.sort sorted =
      ⟨sorted.files ++ files items, (lastDelay items).or sorted.debounce⟩ := by
  induction items using List.reverseRecOn with
  | nil => simp [files, lastDelay, delays]
  | append_singleton items item ih =>
    rw [List.foldl_append, ih, lastDelay, lastDelay, files_append, delays_append]
    cases item <;> simp [Item.sort, Item.file?, Item.delay?, files, delays]

/-- The words of items are sorted item by item. -/
theorem Spells.sortWords_eq (h : Spells words items) (sorted : Sorted) :
    sortWords sorted words =
      some ⟨sorted.files ++ files items, (lastDelay items).or sorted.debounce⟩ := by
  obtain ⟨rfl, hvalid⟩ := h
  rw [← foldl_sort]
  induction items generalizing sorted with
  | nil => rfl
  | cons item items ih =>
    obtain ⟨hitem, hitems⟩ := List.forall_mem_cons.mp hvalid
    rw [List.flatMap_cons, sortWords_words hitem, ih _ hitems, List.foldl_cons]

/-- Words that can be sorted are those of items. -/
theorem exists_spells (h : sortWords sorted words = some sorted') :
    ∃ items, Spells words items := by
  fun_induction sortWords sorted words with
  | case1 => exact ⟨[], .nil⟩
  | case2 => cases h
  | case3 sorted value rest ms hms ih =>
    obtain ⟨items, hitems⟩ := ih h
    exact ⟨_, hitems.cons (milliseconds?_eq_some.mp hms).1⟩
  | case4 => cases h
  | case5 sorted word rest hword ih =>
    obtain ⟨items, hitems⟩ := ih h
    have hvalid : (Item.file word).Valid := hword
    exact ⟨_, hitems.cons hvalid⟩

theorem sortWords_eq_some_iff :
    sortWords ⟨[], none⟩ words = some sorted ↔
      ∃ items, Spells words items ∧ files items = sorted.files ∧
        lastDelay items = sorted.debounce := by
  constructor
  · intro h
    obtain ⟨items, hitems⟩ := exists_spells h
    rw [hitems.sortWords_eq, Option.some.injEq, List.nil_append, Option.or_none] at h
    exact ⟨items, hitems, congrArg Sorted.files h, congrArg Sorted.debounce h⟩
  · rintro ⟨items, hitems, hfiles, hdelay⟩
    rw [hitems.sortWords_eq, hfiles, hdelay, List.nil_append, Option.or_none]

theorem ofWords_eq_some_iff :
    ofWords words = some args ↔ ∃ items, Spells words items ∧
      files items = args.input :: args.outputDir.toList ∧ lastDelay items = args.debounce := by
  have hsorted : ofWords words = some args ↔
      sortWords ⟨[], none⟩ words = some ⟨args.input :: args.outputDir.toList, args.debounce⟩ := by
    obtain ⟨input, outputDir, debounce⟩ := args
    unfold ofWords
    cases outputDir <;> split <;> simp_all [and_assoc]
  rw [hsorted, sortWords_eq_some_iff]

/-- There are arguments just if the words can be read as options with a waiting time each and one or
two files, and these are the arguments; the words can be read in one way only. Rearranging what was
read, with the files in their order and the waiting times in theirs, does not change the arguments.
And wherever the option stands among the words of arguments, a waiting time is behind it, which is
never taken for a file: without the two words the files are the same. -/
theorem ofWords_spells (words : List String) :
    (∀ args, ofWords words = some args ↔ ∃ items, Spells words items ∧
      files items = args.input :: args.outputDir.toList ∧ lastDelay items = args.debounce) ∧
    (∀ items items', Spells words items → Spells words items' → items = items') ∧
    (∀ items items', Spells words items → files items' = files items →
      delays items' = delays items → ofWords (items'.flatMap Item.words) = ofWords words) ∧
    ∀ before after args, words = before ++ option :: after → ofWords words = some args →
      ∃ value rest args', after = value :: rest ∧ (Item.delay value).Valid ∧
        ofWords (before ++ rest) = some args' ∧ args'.input = args.input ∧
        args'.outputDir = args.outputDir := by
  refine ⟨fun args => ofWords_eq_some_iff, fun items items' => Spells.unique,
    fun items items' h hfiles hdelays => ?_, fun before after args hwords hargs => ?_⟩
  · have h' : Spells (items'.flatMap Item.words) items' :=
      ⟨rfl, forall_valid_iff.mpr (by rw [hfiles, hdelays]; exact forall_valid_iff.mp h.valid)⟩
    rw [ofWords, ofWords, h.sortWords_eq, h'.sortWords_eq, lastDelay, lastDelay, hfiles, hdelays]
  · subst hwords
    obtain ⟨items, hitems, hfiles, -⟩ := ofWords_eq_some_iff.mp hargs
    obtain ⟨value, rest, front, back, rfl, rfl, hfront, hback⟩ := hitems.split_option
    have hvalue := hitems.valid _ (List.mem_append_right _ List.mem_cons_self)
    refine ⟨value, rest, ⟨args.input, args.outputDir, lastDelay (front ++ back)⟩, rfl, hvalue,
      ofWords_eq_some_iff.mpr ⟨_, hfront.append hback, ?_, rfl⟩, rfl, rfl⟩
    rw [← hfiles, files_append, files_append, files_delay]

/-- A waiting time may stand before, between or behind the files. -/
theorem ofWords_spells_moved :
    ofWords ["a.asdl", "--debounce", "100", "out"] =
        some ⟨"a.asdl", some "out", some (.integral 100)⟩ ∧
      ofWords ["--debounce", "100", "a.asdl", "out"] =
        some ⟨"a.asdl", some "out", some (.integral 100)⟩ := by
  have hvalid : ∀ item ∈ [Item.file "a.asdl", .delay "100", .file "out"], item.Valid := by
    simp only [List.forall_mem_cons]
    exact ⟨show "a.asdl" ≠ option by decide, ⟨100, by decide⟩, show "out" ≠ option by decide,
      by simp⟩
  have hitems : Spells ["a.asdl", "--debounce", "100", "out"]
      [.file "a.asdl", .delay "100", .file "out"] := ⟨rfl, hvalid⟩
  have hargs : ofWords ["a.asdl", "--debounce", "100", "out"] =
      some ⟨"a.asdl", some "out", some (.integral 100)⟩ :=
    ((ofWords_spells _).1 _).mpr ⟨_, hitems, rfl, by decide⟩
  refine ⟨hargs, Eq.trans ?_ hargs⟩
  exact (ofWords_spells _).2.2.1 _ [.delay "100", .file "a.asdl", .file "out"] hitems rfl rfl

end Schemata.WatchArgs
