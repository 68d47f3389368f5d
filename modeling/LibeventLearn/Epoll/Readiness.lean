import LibeventLearn.Epoll.Kernel

/-!
# What there is to report

What has come in at a socket, and whether anything has since it was last reported.  For a
descriptor that is registered with `EPOLLET`, `epoll_wait` goes by the second: it reports an edge
once, whether what has come in is read then or not.
-/

namespace LibeventLearn.Epoll

/-- The receiving side of a socket. -/
structure Socket where
  /-- The bytes that have not been read. -/
  pending : List UInt8
  /-- The peer has closed its side. -/
  fin : Bool
  /-- Something has come in that was not reported. -/
  edge : Bool

/-- The sockets, by their descriptors. -/
abbrev Sockets := ℤ → Socket

namespace Socket

variable {max : ℕ} (sock : Socket)

/-- A read returns bytes or the end of the stream at once. -/
def readable : Bool := !sock.pending.isEmpty || sock.fin

/-- Bytes come in. -/
def arrive (bytes : List UInt8) : Socket :=
  { sock with pending := sock.pending ++ bytes, edge := true }

/-- The peer closes its side. -/
def finish : Socket := { sock with fin := true, edge := true }

/-- `EPOLLERR` or `EPOLLHUP` comes up. -/
def raise : Socket := { sock with edge := true }

/-- `epoll_wait` has reported the descriptor. -/
def reported : Socket := { sock with edge := false }

/-- Bytes are read. -/
def take (n : ℕ) : Socket := { sock with pending := sock.pending.drop n }

/-- `EPOLL_CTL_ADD` and `EPOLL_CTL_MOD`, where they are granted, look at the socket afresh. -/
def armed (granted : Bool) : Socket :=
  { sock with edge := sock.edge || (granted && sock.readable) }

/-- What a read may answer. -/
def Answers : ReadResult max → Prop
  | .data bytes _ _ => bytes <+: sock.pending
  | .eof => sock.pending = [] ∧ sock.fin = true
  | .error => True

@[simp] lemma reported_readable : sock.reported.readable = sock.readable := rfl

@[simp] lemma reported_edge : sock.reported.edge = false := rfl

/-- A socket that is readable when it is registered is reported. -/
lemma armed_edge (h : sock.readable = true) : (sock.armed true).edge = true := by
  rw [armed, h]
  exact Bool.or_true _

end Socket

/-- What `epoll_wait` may report of a descriptor that is registered with the mask `m`: whether there
is something to read, and of an edge-triggered one only if there is an edge. -/
structure Reports (m : Mask) (sock : Socket) (bits : Mask) : Prop where
  reportable : Reportable m bits
  readable : bits.has epollIn = (m.has epollIn && sock.readable)
  edge : m.has epollEt = true → sock.edge = true

end LibeventLearn.Epoll
