import Mathlib.Data.Int.Basic
import Mathlib.Logic.Function.Basic
import Mathlib.Tactic.Common

/-!
# The kernel behind an epoll instance

What the servers rely on of the kernel: the table of open descriptors, and the interest set of
one epoll instance, a partial map from open descriptors to an event mask and the user data
registered with it (`data.ptr` in the reactor, `data.fd` in the epoll demo).  Closing a
descriptor removes it from the interest set.
-/

namespace LibeventLearn.Epoll

/-- An event mask: the `events` field of `struct epoll_event`. -/
abbrev Mask := BitVec 32

/-- `EPOLLIN`. -/
def epollIn : Mask := 0x001
/-- `EPOLLOUT`. -/
def epollOut : Mask := 0x004
/-- `EPOLLERR`. -/
def epollErr : Mask := 0x008
/-- `EPOLLHUP`. -/
def epollHup : Mask := 0x010
/-- `EPOLLET`. -/
def epollEt : Mask := 0x80000000

/-- The test `events & mask` of the C code. -/
def Mask.has (bits m : Mask) : Bool := bits &&& m != 0

@[simp] lemma epollIn_has_epollIn : epollIn.has epollIn = true := by decide

@[simp] lemma epollOut_has_epollIn : epollOut.has epollIn = false := by decide

@[simp] lemma epollOut_has_epollOut : epollOut.has epollOut = true := by decide

/-- The bits `epoll_wait` may report for a descriptor registered with the mask `m`: those of
the mask, and `EPOLLERR` and `EPOLLHUP`, which it reports in any case. -/
def Reportable (m bits : Mask) : Prop :=
  bits &&& (m ||| epollErr ||| epollHup) = bits

instance (m bits : Mask) : Decidable (Reportable m bits) :=
  inferInstanceAs (Decidable (_ = _))

/-- A bit that is neither in the mask nor one of the two that are always reported is not
reported. -/
lemma Reportable.has_eq_false {m bits b : Mask} (h : Reportable m bits)
    (hb : (m ||| epollErr ||| epollHup) &&& b = 0) : bits.has b = false := by
  have h0 : bits &&& b = 0 := by
    rw [← h, BitVec.and_assoc, hb]
    exact BitVec.and_zero
  simp [Mask.has, h0]

/-- What a read of at most `max` bytes from a stream answers: between 1 and `max` bytes, the end
of the stream, or an error. -/
inductive ReadResult (max : ℕ) where
  | data (bytes : List UInt8) (pos : 0 < bytes.length) (le : bytes.length ≤ max)
  | eof
  | error

/-- The bytes that a read takes from the stream. -/
def ReadResult.bytes {max : ℕ} : ReadResult max → List UInt8
  | .data bytes _ _ => bytes
  | .eof => []
  | .error => []

lemma ReadResult.length_bytes_le {max : ℕ} (r : ReadResult max) : r.bytes.length ≤ max := by
  cases r with
  | data bytes pos le => exact le
  | eof => exact Nat.zero_le _
  | error => exact Nat.zero_le _

/-- The operations of `epoll_ctl`. -/
inductive CtlOp where
  | add
  | mod
  | del
deriving DecidableEq, Repr

/-- The open descriptors and the interest set.  Only an open descriptor can be registered. -/
@[ext] structure Kernel (D : Type*) where
  /-- The descriptors that are open. -/
  isOpen : ℤ → Bool
  /-- The interest set. -/
  interest : ℤ → Option (Mask × D)
  /-- Registered descriptors are open. -/
  open_of_registered : ∀ fd, interest fd ≠ none → isOpen fd = true

namespace Kernel

variable {D : Type*} (k : Kernel D)

/-- No descriptor is open. -/
def empty : Kernel D := ⟨fun _ => false, fun _ => none, fun _ h => absurd rfl h⟩

/-- A new registration of an open descriptor, or a change of the one it has. -/
def register (fd : ℤ) (reg : Mask × D) (h : k.isOpen fd = true) : Kernel D where
  isOpen := k.isOpen
  interest := Function.update k.interest fd (some reg)
  open_of_registered fd' hfd' := by
    by_cases he : fd' = fd
    · rw [he]; exact h
    · rw [Function.update_of_ne he] at hfd'
      exact k.open_of_registered fd' hfd'

/-- The registration of a descriptor taken out of the interest set. -/
def unregister (fd : ℤ) : Kernel D where
  isOpen := k.isOpen
  interest := Function.update k.interest fd none
  open_of_registered fd' hfd' := by
    by_cases he : fd' = fd
    · rw [he, Function.update_self] at hfd'; exact absurd rfl hfd'
    · rw [Function.update_of_ne he] at hfd'
      exact k.open_of_registered fd' hfd'

/-- `close(fd)`: the descriptor is no longer open, and leaves the interest set. -/
def close (fd : ℤ) : Kernel D where
  isOpen := Function.update k.isOpen fd false
  interest := Function.update k.interest fd none
  open_of_registered fd' hfd' := by
    by_cases he : fd' = fd
    · rw [he, Function.update_self] at hfd'; exact absurd rfl hfd'
    · rw [Function.update_of_ne he] at hfd' ⊢
      exact k.open_of_registered fd' hfd'

/-- The kernel hands out the descriptor `fd`, as `accept` and `socket` do. -/
def opened (fd : ℤ) : Kernel D where
  isOpen := Function.update k.isOpen fd true
  interest := k.interest
  open_of_registered fd' hfd' := by
    by_cases he : fd' = fd
    · rw [he, Function.update_self]
    · rw [Function.update_of_ne he]
      exact k.open_of_registered fd' hfd'

/-- `epoll_ctl(efd, op, fd, ev)`: the return value and the kernel after the call.  Adding needs
an open descriptor that is not registered, changing and deleting a registered one; beyond that
the kernel may refuse any call (`granted` is its decision). -/
def epollCtl (granted : Bool) (op : CtlOp) (fd : ℤ) (reg : Mask × D) : ℤ × Kernel D :=
  match op with
  | .add =>
    if h : granted = true ∧ k.isOpen fd = true ∧ (k.interest fd).isNone = true then
      (0, k.register fd reg h.2.1)
    else (-1, k)
  | .mod =>
    if h : granted = true ∧ (k.interest fd).isSome = true then
      (0, k.register fd reg
        (k.open_of_registered fd (Option.isSome_iff_ne_none.1 h.2)))
    else (-1, k)
  | .del =>
    if granted = true ∧ (k.interest fd).isSome = true then (0, k.unregister fd) else (-1, k)

/-- `epoll_wait` may return these bits and user data: each entry is that of another registered
descriptor, with bits that may be reported for it. -/
def WaitReturns (k : Kernel D) (es : List (Mask × D)) : Prop :=
  ∃ fds : List ℤ, fds.Nodup ∧
    List.Forall₂ (fun fd e => ∃ m, k.interest fd = some (m, e.2) ∧ Reportable m e.1) fds es

variable {k} in
/-- One entry may be returned alone. -/
lemma waitReturns_singleton {fd : ℤ} {m bits : Mask} {d : D} (hint : k.interest fd = some (m, d))
    (hbits : Reportable m bits) : k.WaitReturns [(bits, d)] :=
  ⟨[fd], List.pairwise_singleton _ _, .cons ⟨m, hint, hbits⟩ .nil⟩

/-! ### What the operations do to one descriptor -/

variable {k}

@[simp] lemma register_interest {fd : ℤ} {reg : Mask × D} {h : k.isOpen fd = true} :
    (k.register fd reg h).interest = Function.update k.interest fd (some reg) := rfl

@[simp] lemma unregister_interest {fd : ℤ} :
    (k.unregister fd).interest = Function.update k.interest fd none := rfl

@[simp] lemma close_isOpen {fd : ℤ} :
    (k.close fd).isOpen = Function.update k.isOpen fd false := rfl

@[simp] lemma close_interest {fd : ℤ} :
    (k.close fd).interest = Function.update k.interest fd none := rfl

@[simp] lemma opened_isOpen {fd : ℤ} :
    (k.opened fd).isOpen = Function.update k.isOpen fd true := rfl

@[simp] lemma opened_interest {fd : ℤ} : (k.opened fd).interest = k.interest := rfl

@[simp] lemma epollCtl_isOpen {granted : Bool} {op : CtlOp} {fd : ℤ} {reg : Mask × D} :
    (k.epollCtl granted op fd reg).2.isOpen = k.isOpen := by
  cases op <;> simp only [epollCtl] <;> split <;> rfl

lemma epollCtl_interest_of_ne {granted : Bool} {op : CtlOp} {fd fd' : ℤ} {reg : Mask × D}
    (h : fd' ≠ fd) : (k.epollCtl granted op fd reg).2.interest fd' = k.interest fd' := by
  cases op <;> simp only [epollCtl] <;> split <;> simp [Function.update_of_ne h]

/-- Adding, seen at the descriptor itself. -/
lemma epollCtl_add_interest {granted : Bool} {fd : ℤ} {reg : Mask × D} :
    (k.epollCtl granted .add fd reg).2.interest fd =
      if granted = true ∧ k.isOpen fd = true ∧ k.interest fd = none then some reg
      else k.interest fd := by
  simp only [epollCtl, Option.isNone_iff_eq_none]
  split <;> simp [*]

/-- Deleting, seen at the descriptor itself. -/
lemma epollCtl_del_interest {granted : Bool} {fd : ℤ} {reg : Mask × D} :
    (k.epollCtl granted .del fd reg).2.interest fd =
      if granted = true then none else k.interest fd := by
  simp only [epollCtl, Option.isSome_iff_ne_none]
  by_cases hg : granted = true
  · by_cases hi : k.interest fd = none <;> simp [hg, hi]
  · simp [hg]

/-- Changing, seen at the descriptor itself. -/
lemma epollCtl_mod_interest {granted : Bool} {fd : ℤ} {reg : Mask × D} :
    (k.epollCtl granted .mod fd reg).2.interest fd =
      if granted = true ∧ k.interest fd ≠ none then some reg else k.interest fd := by
  simp only [epollCtl, Option.isSome_iff_ne_none]
  split <;> simp [*]

end Kernel

end LibeventLearn.Epoll
