/-!
# Replacing the first occurrence of a pattern
-/

namespace GLang.Text

/-- `cs` with the first occurrence of `pattern` replaced; `cs` itself if there is none. -/
def replaceFirstIn (pattern replacement : List Char) : List Char → List Char
  | [] => if pattern.isEmpty then replacement else []
  | c :: cs =>
    if pattern.isPrefixOf (c :: cs) then replacement ++ (c :: cs).drop pattern.length
    else c :: replaceFirstIn pattern replacement cs

/-- `text` with the first occurrence of `pattern` replaced. -/
def replaceFirst (text pattern replacement : String) : String :=
  String.ofList (replaceFirstIn pattern.toList replacement.toList text.toList)

end GLang.Text
