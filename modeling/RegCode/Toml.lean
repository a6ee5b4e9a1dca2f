import RegCode.Text.Numeral
import RegCode.Text.Printable
import RegCode.Text.Utf8

/-! Documents of tables, pairs and values, and what can be wrong with them. -/
namespace RegCode.Toml

/-- What a date or time says: a date and a time with or without an offset, or one of the two. -/
inductive MomentKind where
  | offsetDateTime | localDateTime | localDate | localTime
  deriving DecidableEq, Repr, Inhabited

def MomentKind.name : MomentKind → String
  | offsetDateTime => "datetime"
  | localDateTime => "local datetime"
  | localDate => "local date"
  | localTime => "local time"

/-- A value; numbers, dates and times keep the text that they were written as. -/
inductive Value where
  | string (s : String)
  | integer (numeral : String)
  | float (numeral : String)
  | boolean (b : Bool)
  | moment (kind : MomentKind) (text : List Char)
  | array (items : List Value)
  | table (pairs : List (List String × Value))
  deriving Repr, Inhabited

/-- A line of a document: a pair, or the head of a table or of a table in a list. -/
inductive Statement where
  | pair (key : List String) (value : Value)
  | table (key : List String)
  | listTable (key : List String)
  deriving Repr, Inhabited

/-- What a key was defined as. -/
inductive KeyKind where
  | value | table | listTable
  deriving DecidableEq, Repr, Inhabited

def KeyKind.name : KeyKind → String
  | value => "value" | table => "table" | listTable => "array table"

def charName (c : Char) : String :=
  let digits := (Text.natDigits 16 c.toNat).map Char.toUpper
  "U+" ++ String.ofList (List.replicate (4 - digits.length) '0' ++ digits) ++
    if Text.isPrintable c then " '" ++ c.toString ++ "'" else ""

/-- What is wrong with a document. -/
inductive Fault where
  | expected (c : Char)
  | endsBefore (c : Char)
  | expectedNewline (found : Char)
  | newlineCut
  | newlineBroken
  | noKey
  | keyStart (found : Char)
  | noEquals
  | noValue
  | expectedWord (word : String)
  | numberLetter (c : Char)
  | noNumber
  | commaFirst
  | noComma
  | arrayOpen
  | inlineTableOpen
  | commentCharacter
  | basicNewline
  | basicOpen
  | literalNewline
  | literalOpen
  | multiBasicOpen
  | multiLiteralOpen
  | multiBasicQuotes
  | multiLiteralQuotes
  | loneBackslash
  | loneReturn
  | stringCharacter
  | escapedCharacter (found : Char)
  | unknownEscape (found : Char)
  | literalCharacter
  | shortCodePoint (needed found : Nat)
  | codePointDigit
  | codePointRange
  | expectedTable (key : String) (kind : KeyKind)
  | shouldBeTable (key : String) (kind : KeyKind)
  | tableAgain (key : String)
  | shouldBeListTable (key : String) (kind : KeyKind)
  | keyAgain (key : String)
  | tableClosed (key : String)
  | mismatch (kind target : String)
  | wrongBoolean (b : Bool)
  | wrongFloat (target : String)
  | wrongInlineTable (target : String)
  | insideScalar (target : String)
  | underscoreFirst
  | underscoreLast
  | underscoreTwice
  | underscoreBeforeExponent
  | underscoreAfterExponent
  | underscoreBeforePoint
  | underscoreAfterPoint
  | leadingZero
  | badNumber (kind numeral : String) (beyond : Bool)
  | pointFirst
  | pointLast
  | pointTwice
  | pointNotAfterDigit
  | pointNotBeforeDigit
  | realLeadingZero
  | badReal (numeral : String) (beyond : Bool)
  | momentDigit
  | dateFormat
  | impossibleDate
  | dateTimeFormat
  | dateTimeSeparator
  | timeFormat
  | hourRange
  | hourColon
  | minuteRange
  | minuteColon
  | secondRange
  | fractionStart
  | fractionEmpty
  | zoneFormat
  | zoneSign
  | zoneColon
  | zoneHours
  | zoneMinutes
  | afterZone
  | afterTime
  | afterDateTime
  deriving DecidableEq, Repr, Inhabited

namespace Fault

def rangeText (beyond : Bool) : String := if beyond then "value out of range" else "invalid syntax"

def detail : Fault → String
  | expected c => "expected character " ++ c.toString
  | endsBefore c => "expected character " ++ c.toString ++ " but the document ended here"
  | expectedNewline c => "expected newline but got " ++ charName c
  | newlineCut => "windows new line expected"
  | newlineBroken => "windows new line should be \\r\\n"
  | noKey => "expected key but found none"
  | keyStart c => "invalid character at start of key: " ++ c.toString
  | noEquals => "expected = after a key, but the document ends there"
  | noValue => "expected value, not eof"
  | expectedWord w => "expected '" ++ w ++ "'"
  | numberLetter c => "unexpected character '" ++ c.toString ++ "' while scanning for a number"
  | noNumber => "incomplete number"
  | commaFirst => "array cannot start with comma"
  | noComma => "array elements must be separated by commas"
  | arrayOpen => "array is incomplete"
  | inlineTableOpen => "inline table is incomplete"
  | commentCharacter => "invalid character in comment"
  | basicNewline => "basic strings cannot have new lines"
  | basicOpen => "basic string not terminated by \""
  | literalNewline => "literal strings cannot have new lines"
  | literalOpen => "unterminated literal string"
  | multiBasicOpen => "multiline basic string not terminated by \"\"\""
  | multiLiteralOpen => "multiline literal string not terminated by '''"
  | multiBasicQuotes => "\"\"\" not allowed in multiline basic string"
  | multiLiteralQuotes => "''' not allowed in multiline literal string"
  | loneBackslash => "need a character after \\"
  | loneReturn => "need a \\n after \\r"
  | stringCharacter => "invalid UTF-8"
  | escapedCharacter c => "invalid character " ++ charName c
  | unknownEscape c => "invalid escaped character " ++ charName c
  | literalCharacter => "invalid character"
  | shortCodePoint n k =>
    "unicode point needs " ++ Text.natText n ++ " character, not " ++ Text.natText k
  | codePointDigit => "non-hex character"
  | codePointRange => "escape sequence is invalid Unicode code point"
  | expectedTable k kind => "expected " ++ k ++ " to be a table, not a " ++ kind.name
  | shouldBeTable k kind => "key " ++ k ++ " should be a table, not a " ++ kind.name
  | tableAgain k => "table " ++ k ++ " already exists"
  | shouldBeListTable k kind =>
    "key " ++ kind.name ++ " already exists as a " ++ k ++ ",  but should be an array table"
  | keyAgain k => "key " ++ k ++ " is already defined"
  | tableClosed k =>
    "cannot redefine table " ++ k ++ " that has already been explicitly defined"
  | mismatch kind target => "cannot decode TOML " ++ kind ++ " into struct field " ++ target
  | wrongBoolean b => "cannot assign boolean to a " ++ if b then "true" else "false"
  | wrongFloat target => "float cannot be assigned to " ++ target
  | wrongInlineTable target => "cannot store inline table in Go type " ++ target
  | insideScalar target => "unhandled kv part: " ++ target
  | underscoreFirst => "number cannot start with underscore"
  | underscoreLast => "number cannot end with underscore"
  | underscoreTwice => "number must have at least one digit between underscores"
  | underscoreBeforeExponent => "cannot have underscore before exponent"
  | underscoreAfterExponent => "cannot have underscore after exponent"
  | underscoreBeforePoint => "cannot have underscore before decimal point"
  | underscoreAfterPoint => "cannot have underscore after decimal point"
  | leadingZero => "leading zero not allowed on decimal number"
  | badNumber kind numeral beyond =>
    "couldn't parse " ++ kind ++ " number: strconv.ParseInt: parsing \"" ++ numeral ++ "\": " ++
      rangeText beyond
  | pointFirst => "float cannot start with a dot"
  | pointLast => "float cannot end with a dot"
  | pointTwice => "float can have at most one decimal point"
  | pointNotAfterDigit => "float decimal point must be preceded by a digit"
  | pointNotBeforeDigit => "float decimal point must be followed by a digit"
  | realLeadingZero => "float integer part cannot have leading zeroes"
  | badReal numeral beyond =>
    "unable to parse float: strconv.ParseFloat: parsing \"" ++ numeral ++ "\": " ++
      rangeText beyond
  | momentDigit => "expected digit (0-9)"
  | dateFormat => "dates are expected to have the format YYYY-MM-DD"
  | impossibleDate => "impossible date"
  | dateTimeFormat =>
    "local datetimes are expected to have the format YYYY-MM-DDTHH:MM:SS[.NNNNNNNNN]"
  | dateTimeSeparator => "datetime separator is expected to be T or a space"
  | timeFormat => "times are expected to have the format HH:MM:SS[.NNNNNN]"
  | hourRange => "hour cannot be greater 23"
  | hourColon => "expecting colon between hours and minutes"
  | minuteRange => "minutes cannot be greater 59"
  | minuteColon => "expecting colon between minutes and seconds"
  | secondRange => "seconds cannot be greater 60"
  | fractionStart => "need at least one digit after fraction point"
  | fractionEmpty => "nanoseconds need at least one digit"
  | zoneFormat => "invalid date-time timezone"
  | zoneSign => "invalid timezone offset character"
  | zoneColon => "expected a : separator"
  | zoneHours => "invalid timezone offset hours"
  | zoneMinutes => "invalid timezone offset minutes"
  | afterZone => "extra bytes at the end of the timezone"
  | afterTime => "extra characters at the end of a local time"
  | afterDateTime => "extra characters at the end of a local date time"

def message : Fault → String
  | insideScalar target => detail (insideScalar target)
  | f => "toml: " ++ f.detail

end Fault

end RegCode.Toml
