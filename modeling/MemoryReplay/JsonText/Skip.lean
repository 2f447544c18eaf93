import MemoryReplay.JsonText.Token

/-!
# Skipping values

A value that nobody asked for is only checked for its brackets and commas: numbers may be too
large, surrogates may stand alone, and there is no limit to the nesting.

- `Skip.skip`: the tokens after a value.
-/

namespace MemoryReplay.JsonText.Skip

/-- A bracket that is open. -/
inductive Bracket where
  | list
  | object

/-- What may come next. -/
inductive Expected where
  /-- A value. -/
  | value
  /-- The first item of a list, or its end. -/
  | item
  /-- The first key of an object, or its end. -/
  | member
  /-- A key. -/
  | key
  /-- The colon after a key. -/
  | colon
  /-- A comma, or the end of the innermost bracket. -/
  | next

/-- The tokens after what is expected, with the brackets that are open, the innermost first. None
if something else comes. -/
def skip : Expected → List Bracket → List Token → Option (List Token)
  | _, _, [] => none
  | .item, .list :: opened, .closeBracket :: rest
  | .next, .list :: opened, .closeBracket :: rest
  | .member, .object :: opened, .closeBrace :: rest
  | .next, .object :: opened, .closeBrace :: rest =>
    if opened.isEmpty then some rest else skip .next opened rest
  | .next, .list :: opened, .comma :: rest => skip .value (.list :: opened) rest
  | .next, .object :: opened, .comma :: rest => skip .key (.object :: opened) rest
  | .member, opened, .text _ :: rest
  | .key, opened, .text _ :: rest => skip .colon opened rest
  | .colon, opened, .colon :: rest => skip .value opened rest
  | .value, opened, token :: rest
  | .item, opened, token :: rest =>
    match token with
    | .null | .bool _ | .number _ | .text _ =>
      if opened.isEmpty then some rest else skip .next opened rest
    | .openBracket => skip .item (.list :: opened) rest
    | .openBrace => skip .member (.object :: opened) rest
    | _ => none
  | _, _, _ => none

end MemoryReplay.JsonText.Skip
