import GlobeDrag.Note

/-!
# Work

What is logged and printed on the way to a result is kept as a list of deeds, so that work which has effects is a value. The deeds
before a failure are done all the same.
-/

namespace GlobeDrag

/-- Something that is done outwardly. -/
inductive Deed where
  /-- A note went to the log. -/
  | noted (note : Note)
  /-- A text went to the output. -/
  | printed (text : String)

/-- The note that a deed sent to the log. -/
def Deed.note? : Deed → Option Note
  | noted note => some note
  | printed _ => none

/-- The text that a deed printed. -/
def Deed.text? : Deed → Option String
  | noted _ => none
  | printed text => some text

/-- A piece of work that can fail: its deeds in their order, and what came of it. -/
structure Work (ε α : Type) where
  deeds : List Deed
  result : Except ε α

namespace Work

variable {ε δ α : Type}

instance : Monad (Work ε) where
  pure a := ⟨[], .ok a⟩
  bind w f :=
    match w.result with
    | .error e => ⟨w.deeds, .error e⟩
    | .ok a => ⟨w.deeds ++ (f a).deeds, (f a).result⟩

/-- Work without deeds. -/
def ofExcept (result : Except ε α) : Work ε α :=
  ⟨[], result⟩

/-- Sends notes to the log. -/
def note (notes : List Note) : Work ε Unit :=
  ⟨notes.map .noted, .ok ()⟩

/-- Prints texts, one after the other. -/
def print (texts : List String) : Work ε Unit :=
  ⟨texts.map .printed, .ok ()⟩

/-- The same work with its error seen otherwise. -/
def mapError (f : ε → δ) (w : Work ε α) : Work δ α :=
  ⟨w.deeds, w.result.mapError f⟩

/-- The notes among the deeds. -/
def notes (w : Work ε α) : List Note :=
  w.deeds.filterMap Deed.note?

/-- What was printed, text by text. -/
def texts (w : Work ε α) : List String :=
  w.deeds.filterMap Deed.text?

/-- All that was printed. -/
def output (w : Work ε α) : String :=
  String.join w.texts

/-- What came of work, and the notes if it did not fail. -/
def outcome (w : Work ε α) : Except ε (α × List Note) :=
  w.result.map (·, w.notes)

end Work

end GlobeDrag
