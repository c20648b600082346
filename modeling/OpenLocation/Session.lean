import OpenLocation.Code.Reference
import OpenLocation.Json.Forms

/-!
# Sessions

A session holds at most one code, none at the start. A step takes a code from some
source, moves from the code that is held to another one, or asks about it. A step
that fails, or needs a code when there is none, leaves things as they are.
-/

namespace OpenLocation

/-- Why a step fails. -/
inductive Failure where
  | error (e : Error)
  | fault (f : Json.Fault)
  deriving DecidableEq, Repr

/-- Where a code is taken from. -/
inductive Source where
  | text (text : List Char)
  /-- A JSON string. -/
  | json (text : List Char)
  | location (location : Location) (requested : Nat)
  deriving DecidableEq, Repr

/-- How to get to another code. -/
inductive Move where
  | shorten (reference : Location)
  | recover (reference : Location)
  /-- To the code of the center of the area. -/
  | recenter (requested : Nat)
  deriving DecidableEq, Repr

/-- What to ask about a code. -/
inductive Question where
  | area
  | json
  | text
  /-- Whether it is the code that a text spells. -/
  | equals (text : List Char)
  deriving DecidableEq, Repr

inductive Step where
  | take (source : Source)
  | move (m : Move)
  | ask (question : Question)
  deriving DecidableEq, Repr

inductive Reply where
  | code (c : Code)
  | area (a : Area)
  | json (text : List Char)
  | text (text : List Char)
  | equal (equal : Bool)
  | failed (f : Failure)
  | noCode
  deriving DecidableEq, Repr

def Source.code [Json.Codec] : Source → Except Failure Code
  | text spelled => (Code.read spelled).mapError .error
  | json source => (Json.readCode source).mapError .fault
  | location place requested => .ok (.ofLocation place requested)

def Move.apply (c : Code) : Move → Except Error Code
  | shorten reference => .ok (c.shorten reference)
  | recover reference => .ok (c.recover reference)
  | recenter requested => c.area.map fun a => .ofLocation a.center requested

def Question.answer [Json.Codec] (c : Code) : Question → Except Error Reply
  | area => c.area.map .area
  | json => .ok (.json c.json)
  | text => .ok (.text c.text)
  | equals spelled => (Code.read spelled).map fun d => .equal (d = c)

/-- Holds a new code, or keeps the old one. -/
def Step.hold (held : Option Code) : Except Failure Code → Option Code × Reply
  | .ok c => (some c, .code c)
  | .error f => (held, .failed f)

/-- The code held after a step, and the reply. -/
def Step.run [Json.Codec] (held : Option Code) : Step → Option Code × Reply
  | take source => hold held source.code
  | move m =>
    match held with
    | none => (held, .noCode)
    | some c => hold held ((m.apply c).mapError .error)
  | ask question =>
    match held with
    | none => (held, .noCode)
    | some c =>
      match question.answer c with
      | .ok reply => (held, reply)
      | .error e => (held, .failed (.error e))

/-- The replies to steps, one after the other. -/
def replies [Json.Codec] (held : Option Code) : List Step → List Reply
  | [] => []
  | s :: rest => (s.run held).2 :: replies (s.run held).1 rest

end OpenLocation
