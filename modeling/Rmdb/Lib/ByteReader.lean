import Mathlib.Data.List.Basic

namespace Rmdb.Lib

/-!
# Reading bytes in order

A structure in a buffer is read field by field.  A reader takes bytes from the front of what is left, and
may fail.

* `ByteReader` — readers, with the errors of the program;
* `readBytes` — a number of bytes;
* `ByteReader.Gets` — the reader gets the value from the bytes, whatever is behind them;
* `Gets.bind`, `Gets.result` — readers of several fields.
-/

variable {ε α β : Type} {bs bs' : List UInt8} {a : α} {b : β}

/-- A reader takes bytes from the front. -/
abbrev ByteReader (ε α : Type) := StateT (List UInt8) (Except ε) α

/-- The next `n` bytes; `err` is what happens if there are fewer. -/
def readBytes (err : ε) (n : Nat) : ByteReader ε (List UInt8) := fun bs =>
  if bs.length < n then .error err else .ok (bs.take n, bs.drop n)

/-- **The reader gets `a` from the bytes**, whatever is behind them. -/
def ByteReader.Gets (r : ByteReader ε α) (bs : List UInt8) (a : α) : Prop :=
  ∀ rest, r (bs ++ rest) = .ok (a, rest)

namespace ByteReader.Gets

variable {r : ByteReader ε α} {k : α → ByteReader ε β}

theorem pure (a : α) : (Pure.pure a : ByteReader ε α).Gets [] a := fun _ => rfl

/-- One field after the other. -/
theorem bind (h : r.Gets bs a) (hk : (k a).Gets bs' b) : ByteReader.Gets (r >>= k) (bs ++ bs') b := by
  intro rest
  show (r (bs ++ bs' ++ rest) >>= fun x => k x.1 x.2) = _
  rw [List.append_assoc, h]
  exact hk rest

/-- A value computed from the last field. -/
theorem result (h : r.Gets bs a) (hk : k a = Pure.pure b) : ByteReader.Gets (r >>= k) bs b := by
  have hpure : (k a).Gets [] b := by
    rw [hk]
    exact Gets.pure b
  have hbind := h.bind hpure
  rwa [List.append_nil] at hbind

end ByteReader.Gets

theorem gets_readBytes (err : ε) {n : Nat} (h : bs.length = n) : (readBytes err n).Gets bs bs := by
  intro rest
  unfold readBytes
  rw [if_neg (by rw [List.length_append]; omega), List.take_left' h, List.drop_left' h]

end Rmdb.Lib
