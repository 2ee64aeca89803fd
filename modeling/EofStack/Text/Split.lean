/-!
# Cutting a text into parts

Three ways of cutting, none of which drops a character that is not a separator:

* `fields` cuts at every separator and leaves the separators out, so that `n` separators
  give `n + 1` fields;
* `pieces` cuts after every line feed and keeps it, so that the pieces concatenate to the
  text (`flatten_pieces`);
* `lines` are the pieces without their line ends.
-/

namespace EofStack.Text

variable {α : Type}

/-! ## Fields between separators -/

/-- The runs of items between the ones that `isSeparator` picks, empty runs included. -/
def fields (isSeparator : α → Bool) (items : List α) : List (List α) :=
  items.foldr
    (fun item rest =>
      if isSeparator item then [] :: rest else (item :: rest.headD []) :: rest.tail)
    [[]]

@[simp] theorem fields_nil (isSeparator : α → Bool) : fields isSeparator [] = [[]] := rfl

theorem fields_cons (isSeparator : α → Bool) (item : α) (items : List α) :
    fields isSeparator (item :: items) =
      if isSeparator item then [] :: fields isSeparator items
      else (item :: (fields isSeparator items).headD []) :: (fields isSeparator items).tail :=
  rfl

theorem fields_ne_nil (isSeparator : α → Bool) (items : List α) :
    fields isSeparator items ≠ [] := by
  cases items with
  | nil => simp
  | cons item items => rw [fields_cons]; split <;> simp

/-! ## Lines -/

/-- The lines of a text, each with the line feed that ends it.  Only the last one may lack
it, and a text that ends in a line feed has no piece behind that. -/
def pieces (text : List Char) : List (List Char) :=
  text.foldr
    (fun c rest => if c = '\n' then ['\n'] :: rest else (c :: rest.headD []) :: rest.tail) []

@[simp] theorem pieces_nil : pieces [] = [] := rfl

theorem pieces_cons (c : Char) (text : List Char) :
    pieces (c :: text) =
      if c = '\n' then ['\n'] :: pieces text
      else (c :: (pieces text).headD []) :: (pieces text).tail :=
  rfl

theorem flatten_pieces (text : List Char) : (pieces text).flatten = text := by
  induction text with
  | nil => rfl
  | cons c text ih =>
    rw [pieces_cons]
    split
    · next h => simp [ih, h]
    · cases hp : pieces text with
      | nil => rw [hp] at ih; simpa using ih
      | cons piece rest => rw [hp] at ih; simpa using ih

/-- A piece without its line feed, and without the one carriage return that stands before a
line feed.  A carriage return at the end of a text that no line feed follows is kept. -/
def withoutLineEnd (piece : List Char) : List Char :=
  match piece.reverse with
  | '\n' :: '\r' :: rest => rest.reverse
  | '\n' :: rest => rest.reverse
  | _ => piece

/-- The lines of a text, without their line ends. -/
def lines (text : List Char) : List (List Char) :=
  (pieces text).map withoutLineEnd

@[simp] theorem lines_nil : lines [] = [] := rfl

end EofStack.Text
