import Schemata.Number.Numeral

/-!
# Arguments of the watcher

The watcher takes an input, an optional output directory and, anywhere among them, the option
`--debounce` followed by a number of milliseconds, the last of which counts.
-/

namespace Schemata

/-- Arguments of the watcher. -/
structure WatchArgs where
  input : String
  outputDir : Option String
  debounce : Option Number
deriving DecidableEq, Repr

namespace WatchArgs

/-- Words of a command line sorted into files and the last waiting time. -/
structure Sorted where
  files : List String
  debounce : Option Number
deriving DecidableEq, Repr

def option : String := "--debounce"

/-- A waiting time: a number that is an integer and not negative. -/
def milliseconds? (word : String) : Option Number :=
  let x := Number.ofText word
  if x.toNat?.isSome then some x else none

/-- Sort words after those sorted before; `none` if a waiting time is missing or is none. -/
def sortWords : Sorted → List String → Option Sorted
  | sorted, [] => some sorted
  | sorted, word :: rest =>
    if word = option then
      match rest with
      | [] => none
      | value :: rest =>
        match milliseconds? value with
        | some ms => sortWords { sorted with debounce := some ms } rest
        | none => none
    else sortWords { sorted with files := sorted.files ++ [word] } rest

/-- The arguments that words spell. -/
def ofWords (words : List String) : Option WatchArgs :=
  match sortWords ⟨[], none⟩ words with
  | some ⟨[input], debounce⟩ => some ⟨input, none, debounce⟩
  | some ⟨[input, outputDir], debounce⟩ => some ⟨input, some outputDir, debounce⟩
  | _ => none

end WatchArgs

end Schemata
