import CAdvanced.FileServer.Request
import CAdvanced.Sysinfo.Model

/-!
# EasyServer — Model

The loop of `easy_server.c` and `print_info`, which its `sysinfo.c` has for it. There is one
buffer for what clients send and one for what they are sent, for all of the run; neither is
ever cleared, and what `malloc` leaves in them is not known. `print_info` writes one line
behind the other, and `*size` is where the next one goes.

Two calls of the loop can be the end of the process: `printf` of a `rx_buffer` behind which no NUL
is to be found, and `write` to a client that is gone, for the signal that comes with it. What the
loop prints besides the `rx_buffer` is left out.
-/

namespace CAdvanced.EasyServer

open CText Sysinfo
open FileServer (readInto)

/-- `bufsize`. -/
def bufsize : Nat := 2048

/-- A buffer of characters, as `malloc(bufsize)` returns it. -/
structure Buffer (α : Type) where
  bytes : List α
  length_eq : bytes.length = bufsize

/-- `tx_buffer` and `tx_size`. -/
structure Tx where
  buffer : Buffer Char
  size : Nat

theorem length_store {b : List Char} (hb : b.length = bufsize) {offset : Nat} {text : List Char}
    (h : offset + text.length < bufsize) :
    (b.take offset ++ (text ++ '\x00' :: b.drop (offset + text.length + 1))).length = bufsize := by
  simp only [List.length_append, List.length_take, List.length_cons, List.length_drop, hb]
  omega

/-- A string and its NUL are written to `&buffer[offset]`; nothing can be said if they do not
fit. -/
def Buffer.store (b : Buffer Char) (offset : Nat) (text : List Char) : Option (Buffer Char) :=
  if h : offset + text.length < bufsize then
    some ⟨b.bytes.take offset ++ (text ++ '\x00' :: b.bytes.drop (offset + text.length + 1)),
      length_store b.length_eq h⟩
  else none

/-- `*size += sprintf(&buffer[*size], ...)`. -/
def Tx.append (l : Line) (tx : Tx) : Option Tx := do
  let text ← sprintf l.1 l.2
  let buffer ← tx.buffer.store tx.size text
  return ⟨buffer, tx.size + text.length⟩

/-- What the kernel answers `print_info`, if it does. -/
structure Answers where
  sysinfo : Option Info
  gethostname : Option Hostname

/-- `print_info`, with what it returns. -/
def printInfo (a : Answers) (tx : Tx) : Option (Int × Tx) := do
  let tx := { tx with size := 0 }
  match a.sysinfo with
  | none => return (1, tx)
  | some info =>
      match a.gethostname with
      | none => return (2, tx)
      | some name =>
          let tx ← tx.append (hostnameLine name)
          let tx ← tx.append (uptimeLine info)
          let tx ← tx.append (procsLine info)
          let tx ← tx.append (totalramLine info)
          let tx ← tx.append (freeramLine info)
          let tx ← tx.append (memUnitLine info)
          return (0, tx)

/-! ## The loop -/

/-- What `recv` gets: nothing if it fails. -/
structure Received where
  bytes : List UInt8
  length_le : bytes.length ≤ bufsize

theorem length_receive {b : List UInt8} (hb : b.length = bufsize) (r : Received) :
    (readInto r.bytes b).length = bufsize := by
  have hr := r.length_le
  unfold readInto
  rw [List.length_append, List.length_drop, hb]
  omega

/-- `recv(new_socket, rx_buffer, bufsize, 0)`. -/
def Buffer.receive (b : Buffer UInt8) (r : Received) : Buffer UInt8 :=
  ⟨readInto r.bytes b.bytes, length_receive b.length_eq r⟩

/-- What one round of the loop is answered. `write` takes a number of bytes, none of them if it
fails, or it brings a `SIGPIPE` instead. -/
structure Round where
  listen : Int
  accept : Int
  recv : Received
  answers : Answers
  write : Option Nat

/-- What a round does that can be seen. -/
inductive Event where
  /-- `printf("%s\n", rx_buffer)`. -/
  | printed (text : List UInt8)
  /-- `write(new_socket, tx_buffer, tx_size)`: what has been taken. -/
  | sent (socket : Int) (text : List Char)
  /-- `close(new_socket)`. -/
  | closed (socket : Int)

/-- The buffers. -/
structure State where
  rx : Buffer UInt8
  tx : Tx

/-- What `recv`, `print_info` and what is around them do for the client at `socket`; `beyond`
stands behind `rx_buffer`. There is no state any more if the process has come to its end. -/
def serve (beyond : List UInt8) (socket : Int) (r : Round) (s : State) :
    Option (List Event × Option State) :=
  let rx := s.rx.receive r.recv
  match cstr (rx.bytes ++ beyond) with
  | none => some ([], none)
  | some received => do
      let (_, tx) ← printInfo r.answers s.tx
      match r.write with
      | none => return ([.printed received], none)
      | some n =>
          let text := tx.buffer.bytes.take tx.size
          return ([.printed received, .sent socket (text.take n), .closed socket], some ⟨rx, tx⟩)

/-- The loop, as far as these answers go. A failure of `listen` or `accept` ends it, with
`exit(1)`. -/
def run (beyond : List UInt8) : List Round → State → Option (List Event)
  | [], _ => some []
  | r :: rs, s =>
      if r.listen < 0 then some []
      else if r.accept < 0 then some []
      else do
        let (events, s) ← serve beyond r.accept r s
        match s with
        | none => return events
        | some s =>
            let rest ← run beyond rs s
            return events ++ rest

end CAdvanced.EasyServer
