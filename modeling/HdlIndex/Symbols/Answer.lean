import HdlIndex.Span
/-! Answers to questions about a symbol table. A question is a tag such as `port_interface_names`;
one that names no category is answered with the empty text. -/
namespace HdlIndex

/-- The value of a category. -/
inductive Answer where
  | text (value : String)
  | list (values : List String)
  | conditions (values : List (List String))
deriving DecidableEq, Repr

namespace Answer

def none : Answer := .text ""

def isEmpty : Answer → Bool
  | text value => value.isEmpty
  | list values => values.isEmpty
  | conditions values => values.isEmpty

end Answer

/-- A tag without the ending `_positions` that it may carry. -/
def category (tag : String) : String :=
  let ending := "_positions".toList
  if ending.isSuffixOf tag.toList then
    String.ofList (tag.toList.take (tag.toList.length - ending.length))
  else tag

/-- What follows `start` in a tag that begins with it. -/
def attribute? (start tag : String) : Option String :=
  if start.toList.isPrefixOf tag.toList then
    some (String.ofList (tag.toList.drop start.toList.length))
  else Option.none

end HdlIndex
