import RecordFilter.Query.Basic
import RecordFilter.Reading.Basic

/-!
# Reading operators and connectors

An operator is one or two symbols; the longer reading wins.  A connector is a doubled
symbol, or a word in any case.

* `length_operator_lt`, `length_connector_lt` — both take at least one byte.
-/

namespace RecordFilter

/-- Reads an operator.  A value has to follow, so the last byte of a window cannot be
an operator. -/
def Operator.read (w : Window) : Reading Operator :=
  match w.rest with
  | first :: second :: _ =>
      if first = Byte.less then
        if second = Byte.equals then .ok (.lessEquals, w.skip 2) else .ok (.less, w.skip 1)
      else if first = Byte.greater then
        if second = Byte.equals then .ok (.greaterEquals, w.skip 2)
        else .ok (.greater, w.skip 1)
      else if first = Byte.equals ∧ second = Byte.equals then .ok (.equals, w.skip 2)
      else if first = Byte.bang ∧ second = Byte.equals then .ok (.notEquals, w.skip 2)
      else w.failure .unexpectedByte .operator Operator.validSymbols
  | _ => w.truncated .operator Operator.validSymbols

namespace Connector

/-- Reads a connector that is a doubled symbol, of which the first stands in front. -/
def readSymbol (connector : Connector) (w : Window) : Reading Connector :=
  match w.rest with
  | first :: second :: _ =>
      if second = first then .ok (connector, w.skip 2)
      else w.failure .unexpectedByte .connector validSymbols
  | _ => w.truncated .connector validSymbols

/-- Reads a connector that is a word. -/
def readWord (w : Window) : Reading Connector :=
  let word := w.run Byte.isLetter
  if Byte.spells ['a', 'n', 'd'] word then .ok (.and, w.skipWhile Byte.isLetter)
  else if Byte.spells ['o', 'r'] word then .ok (.or, w.skipWhile Byte.isLetter)
  else w.failure .unexpectedByte .connector validSymbols

/-- Reads a connector.  A closing parenthesis in its place has no partner. -/
def read (w : Window) : Reading Connector :=
  match w.peek? with
  | none => w.truncated .connector validSymbols
  | some b =>
      if b = Byte.ampersand then readSymbol .and w
      else if b = Byte.bar then readSymbol .or w
      else if b = Byte.closeParen then w.failure .unmatchedGrouping .connector validSymbols
      else if Byte.isLetter b then readWord w
      else w.failure .unexpectedByte .connector validSymbols

end Connector

/-- An operator takes at least one byte. -/
theorem Operator.length_operator_lt {w after : Window} {operator : Operator}
    (h : Operator.read w = .ok (operator, after)) : after.rest.length < w.rest.length := by
  unfold Operator.read Window.failure Window.truncated at h
  grind [Window.length_skip]

/-- A doubled symbol is read off the front of the window. -/
theorem Connector.length_readSymbol_lt {connector found : Connector} {w after : Window}
    (h : Connector.readSymbol connector w = .ok (found, after)) :
    after.rest.length < w.rest.length := by
  unfold Connector.readSymbol Window.failure Window.truncated at h
  grind [Window.length_skip]

/-- A word is read off the front of the window. -/
theorem Connector.length_readWord_lt {found : Connector} {w after : Window}
    (h : Connector.readWord w = .ok (found, after)) :
    after.rest.length < w.rest.length := by
  unfold Connector.readWord Window.failure at h
  dsimp only at h
  split at h
  · next hand =>
    cases h
    exact Window.length_skipWhile_lt (Byte.not_isEmpty_of_spells hand (by simp))
  split at h
  · next hor =>
    cases h
    exact Window.length_skipWhile_lt (Byte.not_isEmpty_of_spells hor (by simp))
  · cases h

/-- A connector takes at least one byte. -/
theorem Connector.length_connector_lt {w after : Window} {connector : Connector}
    (h : Connector.read w = .ok (connector, after)) :
    after.rest.length < w.rest.length := by
  unfold Connector.read Window.failure Window.truncated at h
  grind [→ Connector.length_readSymbol_lt, → Connector.length_readWord_lt]

end RecordFilter
