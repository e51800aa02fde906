import Metainfo.Text.LineIndex

/-!
What a marked-up document consists of, in the order of the document, and why reading it can stop.
-/

namespace Metainfo.Markup

structure Attributes where
  pairs : List (String × String)
  deriving DecidableEq, Repr

namespace Attributes

def empty : Attributes := ⟨[]⟩

/-- The value of the first attribute of a name. -/
def get? (attributes : Attributes) (name : String) : Option String :=
  (attributes.pairs.find? fun pair => pair.1 = name).map Prod.snd

def push (attributes : Attributes) (name value : String) : Attributes :=
  ⟨attributes.pairs ++ [(name, value)]⟩

end Attributes

inductive Event where
  | start (name : String) (attributes : Attributes)
  | stop (name : String)
  | text (content : String)
  deriving DecidableEq, Repr

inductive Quote where
  | single
  | double
  deriving DecidableEq, Repr

def Quote.char : Quote → Char
  | .single => '\''
  | .double => '"'

inductive Fault where
  | strayText
  | junkAfterRoot
  | invalidToken
  | undefinedEntity
  | invalidCharacterNumber
  | unclosedElement
  | noElement
  | unclosedTag
  | unclosedValue (quote : Quote)
  | mismatchedEnd (expected found : String)
  | unmatchedEnd (found : String)
  | unclosedReference
  | unknownMarkup
  | unclosedComment
  | unclosedCharacterData
  | unclosedDoctype
  | namelessDoctype
  | unclosedDeclaration
  | unclosedInstruction
  | reported (text : String)
  deriving DecidableEq, Repr

namespace Fault

def notClosed (what closing : String) : String :=
  what ++ " not closed: \x60" ++ closing ++ "\x60 not found before end of input"

def text : Fault → String
  | .strayText => "syntax error"
  | .junkAfterRoot => "junk after document element"
  | .invalidToken => "not well-formed (invalid token)"
  | .undefinedEntity => "undefined entity"
  | .invalidCharacterNumber => "reference to invalid character number"
  | .unclosedElement => "unclosed token"
  | .noElement => "no element found"
  | .unclosedTag => notClosed "syntax error: tag" ">"
  | .unclosedValue quote => notClosed "syntax error: attribute value" quote.char.toString
  | .mismatchedEnd expected found =>
      "ill-formed document: expected \x60</" ++ expected ++ ">\x60, but \x60</" ++ found ++
        ">\x60 was found"
  | .unmatchedEnd found =>
      "ill-formed document: close tag \x60</" ++ found ++ ">\x60 does not match any open tag"
  | .unclosedReference =>
      notClosed "ill-formed document: entity or character reference" ";"
  | .unknownMarkup => "syntax error: unknown or missed symbol in markup"
  | .unclosedComment => notClosed "syntax error: comment" "-->"
  | .unclosedCharacterData => notClosed "syntax error: CDATA" "]]>"
  | .unclosedDoctype => notClosed "syntax error: DOCTYPE" ">"
  | .namelessDoctype =>
      "ill-formed document: \x60<!DOCTYPE>\x60 declaration does not contain a name of a " ++
        "document type"
  | .unclosedDeclaration => notClosed "syntax error: XML declaration" "?>"
  | .unclosedInstruction => notClosed "syntax error: processing instruction" "?>"
  | .reported text => text

end Fault

inductive Failure where
  | malformed (fault : Fault) (location : Location)
  | unreadable
  deriving DecidableEq, Repr

namespace Failure

def message : Failure → String
  | .malformed fault location =>
      fault.text ++ " at line " ++ toString location.line ++ ":" ++ toString location.column
  | .unreadable => "I/O error"

def location? : Failure → Option Location
  | .malformed _ location => some location
  | .unreadable => none

/-- Reading again may succeed where reading failed; a malformed document stays malformed. -/
def isRetryable : Failure → Bool
  | .malformed _ _ => false
  | .unreadable => true

end Failure

/-- The events of a document up to its end or the first failure. -/
structure Reading where
  events : List Event
  failure : Option Failure
  deriving DecidableEq, Repr

end Metainfo.Markup
