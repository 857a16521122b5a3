import Formulary.Numeral.Reader

/-!
# Cutting a command line into items

A command line is a list of words. A word is one of three kinds: it is two dashes, after which
every word is a plain text; it names options, long ones after two dashes or letters after one; or
it is a plain text. A dash in front of a number in decimal digits does not make the word an
option, so that negative numbers can be written as they are.

The items of a command line are its values and its options with their texts, in order. An option
takes its text from its own word, or else from the next word if that is a plain text. What the
texts mean is not looked at here.
-/

namespace Formulary.Command

/-- An option that takes a text. -/
inductive Setting where
  | target
  | logLevel
  | rounding
  | fingerprints
  | threshold
  | seed
  | store
  | cacheDirectory
  | maxSolutions
deriving DecidableEq

/-- An item of a command line. A setting has no text if none follows it. -/
inductive Item where
  | value (text : String)
  | setting (setting : Setting) (text : Option String)
  | first
  | version
  | help
  | unknown
deriving DecidableEq

/-- The setting with a long name. -/
def Setting.ofName? : String → Option Setting
  | "target" => some .target
  | "log-level" => some .logLevel
  | "rounding" => some .rounding
  | "fingerprints" => some .fingerprints
  | "threshold" => some .threshold
  | "seed" => some .seed
  | "store" => some .store
  | "cache-dir" => some .cacheDirectory
  | "max-solutions" => some .maxSolutions
  | _ => none

/-- The setting with a one-letter name. -/
def Setting.ofLetter? : Char → Option Setting
  | 't' => some .target
  | 'l' => some .logLevel
  | _ => none

/-- The option with a long name that takes no text. -/
def flagOfName : String → Item
  | "first" => .first
  | "version" => .version
  | "help" => .help
  | _ => .unknown

/-- Whether a text is empty or an exponent: a letter `e` and decimal digits. -/
def isExponent : List Char → Bool
  | [] => true
  | c :: digits => (c == 'e' || c == 'E') && (Reader.digits? digits).isSome

/-- Whether a text is an unsigned number that begins with a digit. -/
def isNumber (text : List Char) : Bool :=
  let (whole, rest) := Reader.spanDigits text
  let behindPoint := match rest with
    | '.' :: rest => (Reader.spanDigits rest).2
    | rest => rest
  !whole.isEmpty && isExponent behindPoint

/-- What a word says by itself: the items it holds, and the setting whose text is the next
word. -/
inductive Word where
  | plain
  | ending
  | options (items : List Item) (waiting : Option Setting)

/-- The options of a word with two dashes: a name, and a text after an equals sign. -/
def Word.ofLong (body : List Char) : Word :=
  let name := String.ofList (body.takeWhile (· ≠ '='))
  match Setting.ofName? name, body.dropWhile (· ≠ '=') with
  | some setting, [] => .options [] (some setting)
  | some setting, _ :: text => .options [.setting setting (some (String.ofList text))] none
  | none, [] => .options [flagOfName name] none
  | none, _ :: _ => .options [.unknown] none

/-- The options of a word with one dash: letters, and after the letter of a setting its text,
from which one equals sign is dropped. -/
def Word.ofLetters : List Char → List Item × Option Setting
  | [] => ([], none)
  | letter :: rest =>
    match Setting.ofLetter? letter with
    | some setting =>
      match rest with
      | [] => ([], some setting)
      | '=' :: text => ([.setting setting (some (String.ofList text))], none)
      | text => ([.setting setting (some (String.ofList text))], none)
    | none =>
      let flag : Item := match letter with
        | 'V' => .version
        | 'h' => .help
        | _ => .unknown
      let (items, waiting) := ofLetters rest
      (flag :: items, waiting)

/-- What a word says by itself. -/
def Word.of (word : String) : Word :=
  match word.toList with
  | ['-', '-'] => .ending
  | '-' :: '-' :: body => Word.ofLong body
  | ['-'] => .plain
  | '-' :: body =>
    if isNumber body then .plain
    else
      let (items, waiting) := Word.ofLetters body
      .options items waiting
  | _ => .plain

/-- The item of a setting whose text did not come. -/
def unanswered (waiting : Option Setting) : List Item :=
  waiting.toList.map fun setting => .setting setting none

/-- The items of a command line behind a setting that may still wait for its text. -/
def itemsFrom (waiting : Option Setting) : List String → List Item
  | [] => unanswered waiting
  | word :: rest =>
    match Word.of word, waiting with
    | .plain, some setting => .setting setting (some word) :: itemsFrom none rest
    | .plain, none => .value word :: itemsFrom none rest
    | .ending, _ => unanswered waiting ++ rest.map .value
    | .options items next, _ => unanswered waiting ++ items ++ itemsFrom next rest

/-- The items of a command line. -/
def items (words : List String) : List Item :=
  itemsFrom none words

end Formulary.Command
