import LibeventLearn.Event2.Log
import LibeventLearn.Lib.Simulation

/-!
# Programs that log

`log.c` in use: a program sets the callbacks and the debug mask, logs and fails, in any order.
`event_logv_` hands its `va_list` to the variadic `evutil_snprintf`, which takes it for the first of
its arguments, so that a conversion of the format does not find what it needs.  A run is defined
exactly as long as the formats have none; in particular a failing `EVUTIL_ASSERT` is not.

Seen from outside a run that is defined follows a protocol that knows nothing of arrays and masks.
Every message that is asked for is delivered once, whole texts of at most 1023 bytes, to the
callback that was set last; and a fatal error is told and then ends the program, through the
callback for fatal errors if there is one.
-/

namespace LibeventLearn.Event2

open Lib

variable {F G : Type}

/-- What `log.c` keeps between calls.  `F` and `G` are the callbacks for messages and for fatal
errors, which return and do not call back. -/
structure LogState (F G : Type) where
  logFn : Option F
  fatalFn : Option G
  debugLoggingMask : BitVec 32
  /-- The program has been left. -/
  left : Bool

/-- What a call finds: `errno`, its text, and what `buf` holds before it is written. -/
structure LogIo where
  errno : ℤ
  strerror : ℤ → CText
  uninit : Vector UInt8 logLen

/-- The environment of a call. -/
def LogState.env (s : LogState F G) (warn : ℤ) (io : LogIo) : LogEnv where
  eventLogWarn := warn
  debugLoggingMask := s.debugLoggingMask
  errno := io.errno
  strerror := io.strerror
  logFn := s.logFn.isSome
  fatalFn := s.fatalFn.isSome
  uninit := io.uninit

/-- The macro `event_debug`. -/
def eventDebug (env : LogEnv) (fmt : Option CText) : Option (List LogAct) :=
  if env.debugLoggingMask ≠ 0 then eventDebugx env fmt else some []

instance {env : LogEnv} {severity : ℤ} : Decidable (Suppressed env severity) :=
  inferInstanceAs (Decidable (_ ∧ _))

/-- What `event_logv_` makes of its format, for which it has no arguments.  That of a message that
is suppressed is not looked at. -/
def expanded (env : LogEnv) (severity : ℤ) : Option CText → Option (Option CText)
  | some fmt => if Suppressed env severity then some none else fmt.expand.map some
  | none => some none

/-- The format `"%s:%d: Assertion %s failed in %s"`. -/
def assertFmt : CText where
  text := [37, 115, 58, 37, 100, 58, 32, 65, 115, 115, 101, 114, 116, 105, 111, 110, 32, 37, 115,
    32, 102, 97, 105, 108, 101, 100, 32, 105, 110, 32, 37, 115]
  noNul := by decide

/-- `EVUTIL_ASSERT`.  What follows the call of `event_errx` is not reached. -/
def evutilAssertErrx (env : LogEnv) (cond : Bool) : Option (List LogAct) :=
  if cond then some []
  else (expanded env eventLogErr (some assertFmt)).bind (eventErrx env eventErrorAbrot)

/-- A call of one of the functions of `log.c`, or a use of one of the macros, with the format as it
is given. -/
inductive LogCall (F G : Type) where
  | eventSetLogCallback (cb : Option F)
  | eventSetfatalCallback (cb : Option G)
  | eventEnableDebugLogging (which : BitVec 32)
  | eventErr (eval : ℤ) (fmt : Option CText)
  | eventWarn (fmt : Option CText)
  | eventSocketError (eval sock : ℤ) (fmt : Option CText)
  | eventSocketWarn (sock : ℤ) (fmt : Option CText)
  | eventErrx (eval : ℤ) (fmt : Option CText)
  | eventWarnx (fmt : Option CText)
  | eventMsgx (fmt : Option CText)
  | eventDebugx (fmt : Option CText)
  | eventDebug (fmt : Option CText)
  | evutilAssert (cond : Bool)

namespace LogCall

/-- What a call sets. -/
def set : LogCall F G → LogState F G → LogState F G
  | eventSetLogCallback cb, s => { s with logFn := cb }
  | eventSetfatalCallback cb, s => { s with fatalFn := cb }
  | eventEnableDebugLogging which, s => { s with debugLoggingMask := which }
  | _, s => s

/-- What a call does. -/
def acts (env : LogEnv) : LogCall F G → Option (List LogAct)
  | eventSetLogCallback _ => some []
  | eventSetfatalCallback _ => some []
  | eventEnableDebugLogging _ => some []
  | eventErr eval fmt => (expanded env eventLogErr fmt).bind (Event2.eventErr env eval)
  | eventWarn fmt => (expanded env eventLogWran fmt).bind (Event2.eventWarn env)
  | eventSocketError eval sock fmt =>
    (expanded env eventLogErr fmt).bind (Event2.eventSocketError env eval sock)
  | eventSocketWarn sock fmt =>
    (expanded env env.eventLogWarn fmt).bind (Event2.eventSocketWarn env sock)
  | eventErrx eval fmt => (expanded env eventLogErr fmt).bind (Event2.eventErrx env eval)
  | eventWarnx fmt => (expanded env env.eventLogWarn fmt).bind (Event2.eventWarnx env)
  | eventMsgx fmt => (expanded env eventLogMsg fmt).bind (Event2.eventMsgx env)
  | eventDebugx fmt => (expanded env eventLogDebug fmt).bind (Event2.eventDebugx env)
  | eventDebug fmt => (expanded env eventLogDebug fmt).bind (Event2.eventDebug env)
  | evutilAssert cond => Event2.evutilAssertErrx env cond

end LogCall

/-- Nothing is done after this. -/
def LogAct.leaves : LogAct → Bool
  | .exit _ => true
  | .abort => true
  | _ => false

/-! ## The protocol -/

/-- What is seen of a program that logs. -/
inductive LogEvent (F G : Type) where
  /-- The callback for messages is set. -/
  | setLog (cb : Option F)
  /-- The callback for fatal errors is set. -/
  | setFatal (cb : Option G)
  /-- Debug messages are asked for, or no longer. -/
  | setDebug (on : Bool)
  /-- A message is to be logged; its format is given if no error text belongs to it. -/
  | report (severity : ℤ) (fmt : Option (List UInt8))
  /-- A fatal error is to be logged. -/
  | die (errcode : ℤ)
  /-- A message is handed to a callback. -/
  | told (cb : F) (severity : ℤ) (msg : List UInt8)
  /-- A message is written to `stderr`. -/
  | line (severityStr : String) (msg : List UInt8)
  /-- The fatal error is handed to a callback. -/
  | fatal (cb : G) (errcode : ℤ)
  | exit (errcode : ℤ)
  | abort

/-- What is due next. -/
inductive LogPhase where
  /-- Nothing. -/
  | ready
  /-- A message. -/
  | owes (severity : ℤ) (fmt : Option (List UInt8))
  /-- The message of a fatal error. -/
  | failing (errcode : ℤ)
  /-- The callback for fatal errors, if there is one. -/
  | parting (errcode : ℤ)
  /-- The end of the program. -/
  | closing (errcode : ℤ)
  | gone

/-- A state of the protocol. -/
structure LogProto (F G : Type) where
  sink : Option F
  onFatal : Option G
  debug : Bool
  phase : LogPhase

/-- A text that can be delivered: that which the format says, as far as it fits, if one is given. -/
structure Deliverable (fmt : Option (List UInt8)) (msg : List UInt8) : Prop where
  zero_notMem : (0 : UInt8) ∉ msg
  length_lt : msg.length < logLen
  eq : ∀ f ∈ fmt, ∃ text, expand f = some text ∧ msg = text.take (logLen - 1)

/-- The word for a severity. -/
def severityStr (warn severity : ℤ) : String :=
  if severity = eventLogDebug then "debug"
  else if severity = eventLogMsg then "msg"
  else if severity = warn then "warn"
  else if severity = eventLogErr then "err"
  else "???"

/-- A message on its way to the callback, or to `stderr` if there is none. -/
def LogProto.delivery (p : LogProto F G) (warn severity : ℤ) (msg : List UInt8) : LogEvent F G :=
  match p.sink with
  | some cb => .told cb severity msg
  | none => .line (severityStr warn severity) msg

/-- The protocol. -/
inductive LogProtoStep (warn : ℤ) : LogProto F G → LogEvent F G → LogProto F G → Prop
  | setLog {p : LogProto F G} (h : p.phase = .ready) (cb : Option F) :
      LogProtoStep warn p (.setLog cb) { p with sink := cb }
  | setFatal {p : LogProto F G} (h : p.phase = .ready) (cb : Option G) :
      LogProtoStep warn p (.setFatal cb) { p with onFatal := cb }
  | setDebug {p : LogProto F G} (h : p.phase = .ready) (on : Bool) :
      LogProtoStep warn p (.setDebug on) { p with debug := on }
  | suppressed {p : LogProto F G} (h : p.phase = .ready) (hoff : p.debug = false)
      (fmt : Option (List UInt8)) : LogProtoStep warn p (.report eventLogDebug fmt) p
  | report {p : LogProto F G} (h : p.phase = .ready) {severity : ℤ}
      (hon : severity = eventLogDebug → p.debug = true) (fmt : Option (List UInt8)) :
      LogProtoStep warn p (.report severity fmt) { p with phase := .owes severity fmt }
  | die {p : LogProto F G} (h : p.phase = .ready) (errcode : ℤ) :
      LogProtoStep warn p (.die errcode) { p with phase := .failing errcode }
  | message {p : LogProto F G} {severity : ℤ} {fmt : Option (List UInt8)}
      (h : p.phase = .owes severity fmt) {msg : List UInt8} (hmsg : Deliverable fmt msg) :
      LogProtoStep warn p (p.delivery warn severity msg) { p with phase := .ready }
  | failure {p : LogProto F G} {errcode : ℤ} (h : p.phase = .failing errcode) {msg : List UInt8}
      (hmsg : Deliverable none msg) :
      LogProtoStep warn p (p.delivery warn eventLogErr msg) { p with phase := .parting errcode }
  | fatal {p : LogProto F G} {errcode : ℤ} (h : p.phase = .parting errcode) {cb : G}
      (hcb : p.onFatal = some cb) :
      LogProtoStep warn p (.fatal cb errcode) { p with phase := .closing errcode }
  | closed {p : LogProto F G} {errcode : ℤ} (h : p.phase = .closing errcode) :
      LogProtoStep warn p (.exit errcode) { p with phase := .gone }
  | exit {p : LogProto F G} {errcode : ℤ} (h : p.phase = .parting errcode)
      (hcb : p.onFatal = none) (hne : errcode ≠ eventErrorAbrot) :
      LogProtoStep warn p (.exit errcode) { p with phase := .gone }
  | abort {p : LogProto F G} (h : p.phase = .parting eventErrorAbrot) (hcb : p.onFatal = none) :
      LogProtoStep warn p .abort { p with phase := .gone }

/-! ## The code seen in the protocol -/

/-- The state of the protocol. -/
def LogState.proto (s : LogState F G) : LogProto F G where
  sink := s.logFn
  onFatal := s.fatalFn
  debug := s.debugLoggingMask != 0
  phase := if s.left then .gone else .ready

/-- The format as the protocol knows it: `NULL` says nothing. -/
def formatOf : Option CText → List UInt8
  | some fmt => fmt.text
  | none => []

/-- What a call asks for. -/
def LogCall.request (warn : ℤ) : LogCall F G → List (LogEvent F G)
  | eventSetLogCallback cb => [.setLog cb]
  | eventSetfatalCallback cb => [.setFatal cb]
  | eventEnableDebugLogging which => [.setDebug (which != 0)]
  | eventErr eval _ => [.die eval]
  | eventWarn _ => [.report eventLogWran none]
  | eventSocketError eval _ _ => [.die eval]
  | eventSocketWarn _ _ => [.report warn none]
  | eventErrx eval _ => [.die eval]
  | eventWarnx fmt => [.report warn (some (formatOf fmt))]
  | eventMsgx fmt => [.report eventLogMsg (some (formatOf fmt))]
  | eventDebugx fmt => [.report eventLogDebug (some (formatOf fmt))]
  | eventDebug fmt => [.report eventLogDebug (some (formatOf fmt))]
  | evutilAssert cond => if cond then [] else [.die eventErrorAbrot]

/-- What is seen of what the functions do. -/
def LogState.event (s : LogState F G) : LogAct → Option (LogEvent F G)
  | .log _ _ => none
  | .logFn severity msg => s.logFn.map fun cb => .told cb severity msg
  | .stderr severityStr msg => some (.line severityStr msg)
  | .fatalFn errcode => s.fatalFn.map fun cb => .fatal cb errcode
  | .exit errcode => some (.exit errcode)
  | .abort => some .abort

variable {warn severity errcode : ℤ} {s : LogState F G} {p : LogProto F G} {io : LogIo}
  {env : LogEnv} {errstr fmt fmt' : Option CText} {m e msg : List UInt8} {acts : List LogAct}

/-! ## What is defined -/

/-- What the functions do, if they are defined, is what was asked for. -/
def Follows (warn : ℤ) (s s' : LogState F G) (request : List (LogEvent F G))
    (x : Option (List LogAct)) : Prop :=
  ∀ acts ∈ x, Trace (LogProtoStep warn) s.proto (request ++ acts.filterMap s.event)
    { s'.proto with phase := if acts.any LogAct.leaves then .gone else .ready }

/-- What follows for every text follows for the format. -/
lemma Follows.bind {s' : LogState F G} {request : List (LogEvent F G)} {x : Option (Option CText)}
    {f : Option CText → Option (List LogAct)}
    (h : ∀ fmt', x = some fmt' → Follows warn s s' request (f fmt')) :
    Follows warn s s' request (x.bind f) := by
  intro acts hacts
  obtain ⟨fmt', hfmt', hf⟩ := Option.bind_eq_some_iff.1 hacts
  exact h fmt' hfmt' acts hf

/-- `log.c` before the first call. -/
def LogState.initial (mask : BitVec 32) : LogState F G where
  logFn := none
  fatalFn := none
  debugLoggingMask := mask
  left := false

/-- What the calls of a small program find. -/
def LogIo.enoent : LogIo where
  errno := LogEnv.enoent.errno
  strerror := LogEnv.enoent.strerror
  uninit := LogEnv.enoent.uninit

namespace LogEvent

def isDie : LogEvent F G → Bool
  | die _ => true
  | _ => false

/-- The program ends. -/
def ends : LogEvent F G → Bool
  | exit _ => true
  | abort => true
  | _ => false

end LogEvent

@[simp] lemma not_isDie_delivery : (p.delivery warn severity msg).isDie = false := by
  rw [LogProto.delivery]
  split <;> rfl

@[simp] lemma not_ends_delivery : (p.delivery warn severity msg).ends = false := by
  rw [LogProto.delivery]
  split <;> rfl

end LibeventLearn.Event2
