import Tartine.Basis.Bytes

/-!
# `Basis.Decoder` — sequential decoders and the rule that they read back what was written

A `Decoder α` consumes a prefix of its input and fails (`none`) where the input is malformed. The one
relation proved about decoders is `Reads d bs a`: on `bs` followed by *anything*, `d` yields `a` and stops
exactly at the end of `bs`. It is closed under sequencing (`Reads.bind`) and repetition (`Reads.times`), so a
format's round trip is assembled from the round trips of its fields.
-/

namespace Basis

/-- A decoder: the value read and the input left, or `none` on malformed input. -/
def Decoder (α : Type) : Type := List UInt8 → Option (α × List UInt8)

namespace Decoder

variable {α β : Type}

instance : Monad Decoder where
  pure a := fun bs => some (a, bs)
  bind d f := fun bs =>
    match d bs with
    | none           => none
    | some (a, rest) => f a rest

/-- The decoder that rejects every input. -/
def fail : Decoder α := fun _ => none

/-- One byte. -/
def byte : Decoder UInt8 := fun bs =>
  match bs with
  | []      => none
  | b :: bs => some (b, bs)

/-- The next `n` bytes. -/
def bytes (n : Nat) : Decoder (List UInt8) := fun bs =>
  if n ≤ bs.length then some (bs.take n, bs.drop n) else none

/-- An `n`-byte little-endian number. -/
def le (n : Nat) : Decoder Nat := do
  let bs ← bytes n
  pure (leNat bs)

/-- `n` values in a row. -/
def times : Nat → Decoder α → Decoder (List α)
  | 0,     _ => pure []
  | n + 1, d => do
      let a ← d
      let as ← times n d
      pure (a :: as)

/-- A partial function applied to what a decoder read; `none` is malformed input. -/
def refine (f : α → Option β) (d : Decoder α) : Decoder β := do
  let a ← d
  match f a with
  | some b => pure b
  | none   => fail

end Decoder

/-! ## `Reads`: a decoder inverts an encoding and stops at its end -/

/-- On `bs` followed by anything, `d` yields `a` and leaves what followed. -/
def Reads {α : Type} (d : Decoder α) (bs : List UInt8) (a : α) : Prop :=
  ∀ rest, d (bs ++ rest) = some (a, rest)

section Rules

variable {α β : Type} {d : Decoder α} {bs bs' : List UInt8} {a : α} {b : β}

theorem Reads.pure (a : α) : Reads (Pure.pure a) [] a := fun _ => rfl

theorem Reads.bind {f : α → Decoder β} (h : Reads d bs a) (h' : Reads (f a) bs' b) :
    Reads (d >>= f) (bs ++ bs') b := by
  intro rest
  show (match d (bs ++ bs' ++ rest) with | none => none | some (a, rest) => f a rest) = _
  rw [List.append_assoc, h (bs' ++ rest)]
  exact h' rest

/-- A last field: nothing is left to write after it. -/
theorem Reads.map {f : α → β} (h : Reads d bs a) : Reads (d >>= fun a => Pure.pure (f a)) bs (f a) := by
  have := Reads.bind (f := fun a => Pure.pure (f a)) h (Reads.pure (f a))
  rwa [List.append_nil] at this

theorem Reads.refine {f : α → Option β} (h : Reads d bs a) (hf : f a = some b) :
    Reads (Decoder.refine f d) bs b := by
  have hlast : Reads (match f a with | some b => (Pure.pure b : Decoder β) | none => Decoder.fail) [] b := by
    rw [hf]; exact Reads.pure b
  have := Reads.bind (f := fun a => match f a with | some b => Pure.pure b | none => Decoder.fail) h hlast
  rwa [List.append_nil] at this

theorem reads_byte (b : UInt8) : Reads Decoder.byte [b] b := fun _ => rfl

theorem reads_bytes (bs : List UInt8) : Reads (Decoder.bytes bs.length) bs bs := by
  intro rest
  have hle : bs.length ≤ (bs ++ rest).length := by simp
  rw [Decoder.bytes, if_pos hle, List.take_left, List.drop_left]

theorem reads_le {n v : Nat} (hv : v < 256 ^ n) : Reads (Decoder.le n) (leBytes n v) v := by
  have h := reads_bytes (leBytes n v)
  rw [length_leBytes] at h
  have := h.map (f := leNat)
  rwa [leNat_leBytes_of_lt hv] at this

/-- Repetition: a decoder that reads each element of a list reads the whole list. -/
theorem Reads.times {enc : α → List UInt8} {l : List α} (h : ∀ a ∈ l, Reads d (enc a) a) :
    Reads (Decoder.times l.length d) (l.flatMap enc) l := by
  induction l with
  | nil => exact Reads.pure []
  | cons a l ih =>
      have hhead : Reads d (enc a) a := h a (by simp)
      have htail : Reads (Decoder.times l.length d) (l.flatMap enc) l :=
        ih (fun x hx => h x (List.mem_cons_of_mem _ hx))
      rw [List.flatMap_cons]
      exact hhead.bind (htail.map (f := fun as => a :: as))

/-- Run on exactly the encoding, nothing is left. -/
theorem Reads.exact (h : Reads d bs a) : d bs = some (a, []) := by
  have := h []
  rwa [List.append_nil] at this

end Rules

end Basis
