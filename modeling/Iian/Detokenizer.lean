import Iian.Model

/- `IncrementalDetokenizer`. Its state is the string `pending_`; `out_` is never read. -/
namespace Iian

/-- The expected length of the sequence a lead byte starts; 0 for other bytes. -/
def utf8SeqLen (byte : UInt8) : Nat :=
  if byte < 0x80 then 1
  else if byte &&& 0xE0 = 0xC0 then (if byte ≥ 0xC2 then 2 else 0)
  else if byte &&& 0xF0 = 0xE0 then 3
  else if byte &&& 0xF8 = 0xF0 then (if byte ≤ 0xF4 then 4 else 0)
  else 0

def isCont (byte : UInt8) : Bool := byte &&& 0xC0 = 0x80

/-- The loop of `utf8_complete_prefix` from the current byte on. The first argument counts
the bytes left of a sequence that was found complete. -/
def utf8Scan : Nat → Bytes → Nat
  | _, [] => 0
  | left + 1, _ :: rest => 1 + utf8Scan left rest
  | 0, byte :: rest =>
    let len := utf8SeqLen byte
    if len = 0 then 1 + utf8Scan 0 rest
    else if len > rest.length + 1 then
      -- held back only when every byte so far may belong to the sequence
      if rest.all isCont then 0 else 1 + utf8Scan 0 rest
    else if (rest.take (len - 1)).all isCont then 1 + utf8Scan (len - 1) rest
    else 1 + utf8Scan 0 rest

def utf8CompletePrefix (text : Bytes) : Nat := utf8Scan 0 text

namespace Detokenizer

/-- `push`: the emitted text and the new `pending_`. -/
def push (M : Model) (skipSpecial : Bool) (pending : Bytes) (token : Token) : Bytes × Bytes :=
  let pending := pending ++ M.tokenToPiece token (!skipSpecial)
  let nComplete := utf8CompletePrefix pending
  if nComplete = 0 then ([], pending)
  else (pending.take nComplete, pending.drop nComplete)

end Detokenizer

end Iian
