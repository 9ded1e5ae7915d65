/-!
# Quoted text

A string of the expression language stands between double quotes.  Four characters
have an escape: the quote and the backslash, which would otherwise end the string or
start an escape, and the line feed and the tab.  Every other character stands for
itself.

* `unescape_escape` — escaping is undone by reading the escapes;
* `unescape_eq_self` — a body without a backslash stands for itself.
-/

namespace RecordFilter.Quoted

/-- The characters that write `c` inside a string. -/
def escapeChar (c : Char) : List Char :=
  if c = '"' then ['\\', '"']
  else if c = '\\' then ['\\', '\\']
  else if c = '\n' then ['\\', 'n']
  else if c = '\t' then ['\\', 't']
  else [c]

/-- The body of the string that holds `text`. -/
def escape (text : List Char) : List Char := text.flatMap escapeChar

/-- The character that a backslash followed by `c` stands for: `n` and `t` name the
line feed and the tab, and every other character names itself. -/
def escaped (c : Char) : Char :=
  if c = 'n' then '\n' else if c = 't' then '\t' else c

/-- The text that a string body holds.  A backslash takes the next character with
it; at the end of the body it stands for nothing. -/
def unescape : List Char → List Char
  | [] => []
  | [c] => if c = '\\' then [] else [c]
  | c :: d :: body =>
      if c = '\\' then escaped d :: unescape body else c :: unescape (d :: body)

/-- The text `text` as a string between quotes. -/
def quote (text : String) : String :=
  String.ofList ('"' :: escape text.toList ++ ['"'])

/-- An escaped character is read back, whatever follows. -/
theorem unescape_escapeChar_append (c : Char) (body : List Char) :
    unescape (escapeChar c ++ body) = c :: unescape body := by
  unfold escapeChar
  split
  · simp_all [unescape, escaped]
  split
  · simp_all [unescape, escaped]
  split
  · simp_all [unescape, escaped]
  split
  · simp_all [unescape, escaped]
  cases body with
  | nil => simp_all [unescape]
  | cons d body => simp_all [unescape]

/-- Reading the escapes undoes escaping. -/
theorem unescape_escape (text : List Char) : unescape (escape text) = text := by
  induction text with
  | nil => rfl
  | cons c text ih =>
      show unescape (escapeChar c ++ escape text) = c :: text
      rw [unescape_escapeChar_append, ih]

/-- A body without a backslash stands for itself. -/
theorem unescape_eq_self {body : List Char} (h : '\\' ∉ body) : unescape body = body := by
  induction body with
  | nil => rfl
  | cons c body ih =>
      have hc : c ≠ '\\' := fun hc => h (by simp [hc])
      have hbody : '\\' ∉ body := fun hb => h (by simp [hb])
      cases body with
      | nil => simp [unescape, hc]
      | cons d body => rw [unescape, if_neg hc, ih hbody]

end RecordFilter.Quoted
