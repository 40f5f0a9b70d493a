import ChunkStorage.Lib.Posix
import ChunkStorage.Types

set_option autoImplicit false

/-! # The chunk streams

`worker/streams.h`: the virtual interfaces a `ChunkStore` reads the payload from and writes it to.
An implementation is a state machine, so "every stream" is every type of states with every
transition function on it. A read replies with the bytes it put in the buffer; a reply longer than
the buffer stands for a stream that claims more bytes than it was given room for. -/

namespace ChunkStorage

open Effects Posix

/-- `ChunkInputStream::Read(buffer)`, given the buffer's size. A successful read of no bytes is
    the end of the stream. -/
abbrev ChunkInputStream (σ : Type) := σ → ℕ → StatusOr Bytes × σ

/-- `ChunkOutputStream::Write(data)`. -/
abbrev ChunkOutputStream (τ : Type) := τ → Bytes → Status × τ

inductive StreamOp where
  | read (size : ℕ)
  | write (data : Bytes)

abbrev StreamOp.Ret : StreamOp → Type
  | .read _ => StatusOr Bytes
  | .write _ => Status

abbrev Streams : Signature := ⟨StreamOp, StreamOp.Ret⟩

/-- What a chunk store performs: system calls, and calls of its two streams. -/
abbrev StoreSig : Signature := Sys.sum Streams

/-- A store call and the states of its two streams. -/
abbrev StoreWorld (σ τ : Type) := World Streams (σ × τ)

/-- The streams of a call answer for themselves. -/
def streams {σ τ : Type} (input : ChunkInputStream σ) (output : ChunkOutputStream τ) :
    (op : Streams.Op) → σ × τ → Streams.Ret op × (σ × τ)
  | .read size, s =>
      let x := input s.1 size
      (x.1, (x.2, s.2))
  | .write data, s =>
      let x := output s.2 data
      (x.1, (s.1, x.2))

/-- `input.Read(buffer)`. -/
abbrev inputRead (size : ℕ) : Program StoreSig (StatusOr Bytes) :=
  Program.perform (S := StoreSig) (.inr (.read size))

/-- `output.Write(data)`. -/
abbrev outputWrite (data : Bytes) : Program StoreSig Status :=
  Program.perform (S := StoreSig) (.inr (.write data))

/-- The bytes handed to the output stream, in order. -/
def handed : List (Event StoreSig) → Bytes
  | [] => []
  | ⟨.inr (.write data), _⟩ :: events => handed events ++ data
  | _ :: events => handed events

@[simp] theorem handed_sys (s : Syscall) (r : s.Ret) (events : List (Event StoreSig)) :
    handed (⟨.inl s, r⟩ :: events) = handed events := rfl

@[simp] theorem handed_read (size : ℕ) (r : StatusOr Bytes) (events : List (Event StoreSig)) :
    handed (⟨.inr (.read size), r⟩ :: events) = handed events := rfl

@[simp] theorem handed_write (data : Bytes) (r : Status) (events : List (Event StoreSig)) :
    handed (⟨.inr (.write data), r⟩ :: events) = handed events ++ data := rfl

/-- A system call hands nothing to the output. -/
@[simp] theorem handed_answered {σ τ : Type} (w : StoreWorld σ τ) (s : Syscall) (r : s.Ret)
    (fds : List OpenFile) (fs : FS) : handed (w.answered s r fds fs).trace = handed w.trace := by
  unfold World.answered
  dsimp only
  split
  · rfl
  · exact handed_sys s r w.trace

end ChunkStorage
