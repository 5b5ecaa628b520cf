import Nxlog.L2Machine.Logdata

/-!
# Input buffers (`common/module.h`, `common/module.c`)

An input has a buffer of `bufsize` bytes, of which `buf[bufstart .. bufstart +
buflen)` is received and not yet read (`pending`). Data is received behind that
part; the readers consume it from the front and now and then move it to the
front of the buffer.

`buf` is the memory of the buffer, so a read behind it is a fault; `buflen` is an
`int` as in the source, where a reader can make it negative. The operations are
described by what they do to `pending`.
-/
namespace Nxlog.L3
open L1 L2 List

/-- `nx_module_input_t`, as far as the readers use it; `ctx` is the incomplete
record of the line reader. -/
structure Input where
  buf : Bytes
  bufsize : Nat
  bufstart : Nat
  buflen : Int
  ctx : Option Logdata
  deriving DecidableEq

namespace Input

def pending (input : Input) : Bytes := (input.buf.drop input.bufstart).take input.buflen.toNat

structure Wf (input : Input) : Prop where
  size : input.buf.length = input.bufsize
  nonneg : 0 ≤ input.buflen
  room : input.bufstart + input.buflen ≤ input.bufsize

def fresh (buf : Bytes) : Input := ⟨buf, buf.length, 0, 0, none⟩

/-- common/module.c:310-318: before receiving, an empty buffer starts over. -/
def prepare (input : Input) : Input :=
  let input := if input.bufstart = input.bufsize then { input with bufstart := 0, buflen := 0 } else input
  if input.buflen = 0 then { input with bufstart := 0 } else input

/-- common/module.c:320: the length passed to `apr_socket_recvfrom`. -/
def roomLeft (input : Input) : Nat := (input.bufsize - (input.buflen + input.bufstart)).toNat

def receive (input : Input) (data : Bytes) : Input :=
  let pos := (input.bufstart + input.buflen).toNat
  { input with
    buf := input.buf.take pos ++ (data ++ input.buf.drop (pos + data.length))
    buflen := input.buflen + data.length }

/-- mirrors common/module.c:299-333 (`nx_module_input_fill_buffer_from_socket`)
when the call returns `data`, which is at most `input.prepare.roomLeft` bytes. -/
def fill (input : Input) (data : Bytes) : Input := input.prepare.receive data

/-- `memmove(buf, buf + bufstart, buflen); bufstart = 0;` -/
def moveToFront (input : Input) : Input :=
  { input with buf := input.pending ++ input.buf.drop input.pending.length, bufstart := 0 }

def advance (input : Input) (n : Nat) : Input :=
  { input with bufstart := input.bufstart + n, buflen := input.buflen - n }

def readAll (reader : Input → Res (Option Logdata × Input)) : Nat → Input → Res (List Logdata × Input)
  | 0, _ => Res.hang
  | fuel + 1, input => do
    let (r, input) ← reader input
    match r with
    | none => return ([], input)
    | some ld => do
      let (lds, input) ← readAll reader fuel input
      return (ld :: lds, input)

/-- `data` is received and read. Every record takes a byte at least, so a reader is
called `buflen + 1` times at most. -/
def feed (reader : Input → Res (Option Logdata × Input)) (input : Input) (data : Bytes) :
    Res (List Logdata × Input) :=
  let input := input.fill data
  readAll reader (input.buflen.toNat + 1) input

/-! ## What the operations do to the pending bytes -/

theorem fresh_wf (buf : Bytes) : (fresh buf).Wf := ⟨rfl, Int.le_refl 0, by simp [fresh]⟩

theorem fresh_pending (buf : Bytes) : (fresh buf).pending = [] := by simp [fresh, pending]

variable {input : Input}

theorem Wf.pending_length (h : input.Wf) : (input.pending.length : Int) = input.buflen := by
  have h1 := h.size
  have h2 := h.nonneg
  have h3 := h.room
  simp only [pending, length_take, length_drop]
  omega

theorem Wf.buflen_of_nil (h : input.Wf) (hnil : input.pending = []) : input.buflen = 0 := by
  rw [← h.pending_length, hnil]
  rfl

/-- The memory from the first pending byte on. -/
theorem drop_bufstart (input : Input) :
    input.buf.drop input.bufstart = input.pending ++ input.buf.drop (input.bufstart + input.buflen.toNat) := by
  rw [pending, ← drop_drop, take_append_drop]

theorem Wf.prepare (h : input.Wf) : input.prepare.Wf ∧ input.prepare.pending = input.pending := by
  have h1 := h.size
  have h2 := h.nonneg
  have h3 := h.room
  unfold Input.prepare
  by_cases hs : input.bufstart = input.bufsize
  · have h0 : input.buflen = 0 := by omega
    simp only [if_pos hs]
    exact ⟨⟨h1, Int.le_refl 0, by simp⟩, by simp [pending, h0]⟩
  · simp only [if_neg hs]
    by_cases h0 : input.buflen = 0
    · rw [if_pos h0]
      exact ⟨⟨h1, h2, by simp [h0]⟩, by simp [pending, h0]⟩
    · rw [if_neg h0]
      exact ⟨h, rfl⟩

@[simp] theorem prepare_bufsize (input : Input) : input.prepare.bufsize = input.bufsize := by
  unfold prepare; dsimp only; split <;> split <;> rfl

@[simp] theorem prepare_ctx (input : Input) : input.prepare.ctx = input.ctx := by
  unfold prepare; dsimp only; split <;> split <;> rfl

/-- Where there is room behind the pending bytes, there still is after the
buffer has been prepared. -/
theorem roomLeft_prepare (h : input.bufstart + input.buflen < input.bufsize)
    (h0 : 0 ≤ input.buflen) : 0 < input.prepare.roomLeft := by
  have hs : input.bufstart ≠ input.bufsize := by omega
  unfold prepare
  simp only [if_neg hs]
  split
  · simp only [roomLeft]; omega
  · simp only [roomLeft]; omega

theorem Wf.receive (h : input.Wf) {data : Bytes} (hd : data.length ≤ input.roomLeft) :
    (input.receive data).Wf ∧ (input.receive data).pending = input.pending ++ data := by
  have h1 := h.size
  have h2 := h.nonneg
  have h3 := h.room
  unfold roomLeft at hd
  refine ⟨⟨?_, ?_, ?_⟩, ?_⟩
  · simp [Input.receive]; omega
  · simp [Input.receive]; omega
  · simp [Input.receive]; omega
  obtain ⟨n, hn⟩ := Int.eq_ofNat_of_zero_le h2
  simp only [Input.receive, pending, hn, Int.toNat_natCast]
  rw [show ((input.bufstart : Int) + (n : Int)).toNat = input.bufstart + n by omega,
    show ((n : Int) + (data.length : Int)).toNat = n + data.length by omega,
    drop_append_of_le_length (by simp; omega), ← take_drop, take_append]
  have hlen : ((input.buf.drop input.bufstart).take n).length = n := by simp; omega
  rw [hlen, take_of_length_le (by omega), show n + data.length - n = data.length by omega,
    take_left' rfl]

/-- Filling the buffer appends to the pending bytes. -/
theorem Wf.fill (h : input.Wf) {data : Bytes} (hd : data.length ≤ input.prepare.roomLeft) :
    (input.fill data).Wf ∧ (input.fill data).pending = input.pending ++ data := by
  obtain ⟨hw, hp⟩ := h.prepare
  have := hw.receive hd
  rw [hp] at this
  exact this

@[simp] theorem fill_bufsize (input : Input) (data : Bytes) :
    (input.fill data).bufsize = input.bufsize := prepare_bufsize input

@[simp] theorem fill_ctx (input : Input) (data : Bytes) : (input.fill data).ctx = input.ctx :=
  prepare_ctx input

theorem Wf.moveToFront (h : input.Wf) : input.moveToFront.Wf ∧ input.moveToFront.pending = input.pending := by
  have h1 := h.size
  have h2 := h.nonneg
  have h3 := h.room
  have hl := h.pending_length
  refine ⟨⟨?_, h2, ?_⟩, ?_⟩
  · simp [Input.moveToFront]; omega
  · simp [Input.moveToFront]; omega
  · show (drop 0 (input.pending ++ input.buf.drop input.pending.length)).take input.buflen.toNat = _
    rw [drop_zero, take_left' (by omega)]

theorem Wf.advance (h : input.Wf) {n : Nat} (hn : n ≤ input.pending.length) :
    (input.advance n).Wf ∧ (input.advance n).pending = input.pending.drop n := by
  have h3 := h.room
  have hl := h.pending_length
  refine ⟨⟨h.size, by simp [Input.advance]; omega, by simp [Input.advance]; omega⟩, ?_⟩
  simp only [Input.advance, pending]
  rw [drop_take, drop_drop]
  congr 1
  omega

end Input
end Nxlog.L3
