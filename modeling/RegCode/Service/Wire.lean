import RegCode.Service

/-! Messages on the wire: headers, an empty line and a body of as many bytes as the headers say. -/
namespace RegCode.Service

open Json (Value)
open Text (Bytes)

/-- Why reading stops: the client is gone, or what it sent cannot be read. -/
inductive Stop where
  | ended
  | cutShort
  | badLength (text : String)
  | noLength
  | cancelled
  deriving DecidableEq, Repr

def Stop.message? : Stop → Option String
  | ended => none
  | cutShort => some "unexpected EOF"
  | badLength text => some ("invalid Content-Length: " ++ text)
  | noLength => some "missing Content-Length header"
  | cancelled => some "context canceled"

def line? : Bytes → Option (Bytes × Bytes)
  | [] => none
  | b :: bs => if b = 10 then some ([], bs) else (line? bs).map fun (l, r) => (b :: l, r)

/-- Length that the headers give and what follows the empty line; the bound counts the bytes. -/
def headers : Nat → Int → Bytes → Except Stop (Int × Bytes)
  | 0, _, _ => .error .ended
  | fuel + 1, length, bs =>
    match line? bs with
    | none => .error .ended
    | some (l, rest) =>
      let text := Text.trim (Text.ofBytes l)
      if text = "" then .ok (length, rest)
      else
        match Text.stripStart? "Content-Length:" text with
        | none => headers fuel length rest
        | some value =>
          let value := Text.trim value
          match (Text.readSigned value).ok? with
          | some n => headers fuel n rest
          | none => .error (.badLength value)

def frame (bs : Bytes) : Except Stop (String × Bytes) :=
  match headers (bs.length + 1) 0 bs with
  | .error s => .error s
  | .ok (length, rest) =>
    if length = 0 then .error .noLength
    else if rest.length < length.toNat then .error (if rest.isEmpty then .ended else .cutShort)
    else .ok (Text.ofBytes (rest.take length.toNat), rest.drop length.toNat)

def answer (s : Service) (text : String) : List Value × Service :=
  match Request.read text with
  | none => ([], s)
  | some r => s.handle r

def serveAll : Nat → Service → Bytes → List Value × Stop
  | 0, _, _ => ([], .ended)
  | fuel + 1, s, bs =>
    match frame bs with
    | .error stop => ([], stop)
    | .ok (text, rest) =>
      let (out, s) := s.answer text
      if s.stopped then (out, .ended)
      else
        let (more, stop) := serveAll fuel s rest
        (out ++ more, stop)

def serve (s : Service) (cancelled : Bool) (bs : Bytes) : List Value × Stop :=
  if cancelled then ([], .cancelled) else serveAll (bs.length + 1) s bs

def framed (text : String) : String :=
  "Content-Length: " ++ Text.natText text.utf8ByteSize ++ "\r\n\r\n" ++ text

end RegCode.Service
