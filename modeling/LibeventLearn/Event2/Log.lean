import LibeventLearn.Lib.CMemory

/-!
# Log messages

The functions of `log.c`.  A message is built in an array of 1024 bytes, and the text of an error
is to be appended to it.  But the place it is written to is the length of the error text and not
that of the message, so that it overwrites a longer message and cannot be seen behind a shorter
one; and `event_errx`, which is for messages without an error, passes one.
-/

namespace LibeventLearn.Event2

open Lib

/-- The size of `buf` in `event_logv_`. -/
abbrev logLen : ℕ := 1024

/-- `EVENT_LOG_DEBUG`. -/
def eventLogDebug : ℤ := 0
/-- `EVENT_LOG_MSG`. -/
def eventLogMsg : ℤ := 1
/-- `EVENT_LOG_WRAN`. -/
def eventLogWran : ℤ := 2
/-- `EVENT_LOG_ERR`. -/
def eventLogErr : ℤ := 3
/-- `EVENT_ERROR_ABROT_`. -/
def eventErrorAbrot : ℤ := toInt32 0xdeaddead

/-- What the functions depend on besides their arguments. -/
structure LogEnv where
  /-- `EVENT_LOG_WARN`, which `log.c` uses and no header defines. -/
  eventLogWarn : ℤ
  /-- `event_debug_logging_mask_`. -/
  debugLoggingMask : BitVec 32
  errno : ℤ
  strerror : ℤ → CText
  /-- `log_fn` is set. -/
  logFn : Bool
  /-- `fatal_fn` is set. -/
  fatalFn : Bool
  /-- What the uninitialised array `buf` holds. -/
  uninit : Vector UInt8 logLen

/-- What the functions do. -/
inductive LogAct where
  /-- `event_log` is called. -/
  | log (severity : ℤ) (msg : List UInt8)
  /-- `log_fn` is called. -/
  | logFn (severity : ℤ) (msg : List UInt8)
  /-- A line is written to `stderr`. -/
  | stderr (severityStr : String) (msg : List UInt8)
  /-- `fatal_fn` is called. -/
  | fatalFn (errcode : ℤ)
  | exit (errcode : ℤ)
  | abort
deriving DecidableEq

variable (env : LogEnv)

/-- `event_exit`. -/
def eventExit (errcode : ℤ) : List LogAct :=
  if env.fatalFn then [.fatalFn errcode, .exit errcode]
  else if errcode = eventErrorAbrot then [.abort]
  else [.exit errcode]

/-- `event_log`. -/
def eventLog (severity : ℤ) (msg : List UInt8) : List LogAct :=
  .log severity msg ::
    if env.logFn then [.logFn severity msg]
    else if severity = eventLogDebug then [.stderr "debug" msg]
    else if severity = eventLogMsg then [.stderr "msg" msg]
    else if severity = env.eventLogWarn then [.stderr "warn" msg]
    else if severity = eventLogErr then [.stderr "err" msg]
    else [.stderr "???" msg]

/-- The format `": %s"`. -/
def colon (errstr : List UInt8) : List UInt8 := 58 :: 32 :: errstr

/-- The first part of `event_logv_`: the expanded format, or nothing, is written to `buf`. -/
def writeFmt : Option CText → Option (Vector UInt8 logLen)
  | some fmt => snprintf env.uninit 0 logLen fmt.text
  | none => store env.uninit 0 [0]

/-- The second part of `event_logv_`: the error text is written to `buf + len`. -/
def writeErrstr (buf : Vector UInt8 logLen) : Option CText → Option (Vector UInt8 logLen)
  | some errstr =>
    let len := errstr.text.length
    if len < logLen - 3 then snprintf buf len (logLen - len) (colon errstr.text) else some buf
  | none => some buf

/-- `event_logv_`; the format is what it expands to with its arguments, or `NULL`. -/
def eventLogv (severity : ℤ) (errstr fmt : Option CText) : Option (List LogAct) :=
  if severity = eventLogDebug ∧ env.debugLoggingMask = 0 then some []
  else
    (writeFmt env fmt).bind fun buf =>
    (writeErrstr buf errstr).bind fun buf =>
    (cString buf).bind fun msg =>
    some (eventLog env severity msg)

/-- `strerror(errno)`, and `evutil_socket_error_to_string` of any socket. -/
def LogEnv.errstr : CText := env.strerror env.errno

/-- `event_err`. -/
def eventErr (eval : ℤ) (fmt : Option CText) : Option (List LogAct) :=
  (eventLogv env eventLogErr (some env.errstr) fmt).map (· ++ eventExit env eval)

/-- `event_warn`. -/
def eventWarn (fmt : Option CText) : Option (List LogAct) :=
  eventLogv env eventLogWran (some env.errstr) fmt

/-- `event_socket_error`. -/
def eventSocketError (eval _sock : ℤ) (fmt : Option CText) : Option (List LogAct) :=
  (eventLogv env eventLogErr (some env.errstr) fmt).map (· ++ eventExit env eval)

/-- `event_socket_warn`. -/
def eventSocketWarn (_sock : ℤ) (fmt : Option CText) : Option (List LogAct) :=
  eventLogv env env.eventLogWarn (some env.errstr) fmt

/-- `event_errx`, which also passes `strerror(errno)`. -/
def eventErrx (eval : ℤ) (fmt : Option CText) : Option (List LogAct) :=
  (eventLogv env eventLogErr (some env.errstr) fmt).map (· ++ eventExit env eval)

/-- `event_warnx`. -/
def eventWarnx (fmt : Option CText) : Option (List LogAct) :=
  eventLogv env env.eventLogWarn none fmt

/-- `event_msgx`. -/
def eventMsgx (fmt : Option CText) : Option (List LogAct) := eventLogv env eventLogMsg none fmt

/-- `event_debugx_`. -/
def eventDebugx (fmt : Option CText) : Option (List LogAct) :=
  eventLogv env eventLogDebug none fmt

/-! ## What should be logged -/

/-- The message: what the format expands to, as far as it fits. -/
def message (fmt : Option CText) : List UInt8 :=
  match fmt with
  | some text => text.text.take (logLen - 1)
  | none => []

/-- What should be logged of a message and an error text. -/
def composed (m : List UInt8) : Option (List UInt8) → List UInt8
  | some e => if m.length < logLen - 3 then (m ++ colon e).take (logLen - 1) else m
  | none => m

/-- The strings handed to `event_log`. -/
def logged (acts : List LogAct) : List (List UInt8) :=
  acts.filterMap fun a => match a with
    | .log _ msg => some msg
    | _ => none

/-- The function is defined and hands `t` to `event_log`, and nothing else. -/
def Logs (x : Option (List LogAct)) (t : List UInt8) : Prop :=
  ∃ acts, x = some acts ∧ logged acts = [t]

/-- What is logged instead. -/
def logText (m : List UInt8) : Option (List UInt8) → List UInt8
  | some e =>
    if e.length < logLen - 3 ∧ e.length ≤ m.length then
      m.take e.length ++ (colon e).take (logLen - 1 - e.length)
    else m
  | none => m

/-- The exact condition on a message and an error text: both are too long for anything to be
written, or they have the same length, or else what is written over the message is what belongs
there. -/
def Composes (m : List UInt8) : Option (List UInt8) → Prop
  | some e =>
    (logLen - 3 ≤ m.length ∧ logLen - 3 ≤ e.length) ∨
    (e.length = m.length ∧ m.length < logLen - 3) ∨
    (e.length < m.length ∧ e.length < logLen - 3 ∧
      (colon e).take (logLen - 1 - e.length) = m.drop e.length ++
        if m.length < logLen - 3 then (colon e).take (logLen - 1 - m.length) else [])
  | none => True

/-- The message is logged as it is although there is an error text: that is too long, or longer
than the message, or what is written over the message is what was there. -/
def Unharmed (m e : List UInt8) : Prop :=
  logLen - 3 ≤ e.length ∨ m.length < e.length ∨
    (colon e).take (logLen - 1 - e.length) = m.drop e.length

variable {env} {severity eval sock : ℤ} {errstr fmt : Option CText} {m e t : List UInt8}

/-- The debug mask suppresses the message. -/
def Suppressed (env : LogEnv) (severity : ℤ) : Prop :=
  severity = eventLogDebug ∧ env.debugLoggingMask = 0

/-! ## What is logged -/

lemma zero_notMem_message (fmt : Option CText) : (0 : UInt8) ∉ message fmt := by
  cases fmt with
  | none => exact List.not_mem_nil
  | some text => exact fun h => text.noNul (List.mem_of_mem_take h)

@[simp] lemma logged_append (acts acts' : List LogAct) :
    logged (acts ++ acts') = logged acts ++ logged acts' := List.filterMap_append

@[simp] lemma logged_eventExit : logged (eventExit env eval) = [] := by
  rw [eventExit]
  split
  · rfl
  · split <;> rfl

@[simp] lemma logged_eventLog : logged (eventLog env severity t) = [t] := by
  have htail : ∀ c : Prop, ∀ [Decidable c] (a b : List LogAct), logged a = [] → logged b = [] →
      logged (if c then a else b) = [] := fun c _ a b ha hb => by split <;> assumption
  rw [eventLog, ← List.singleton_append, logged_append]
  rw [htail _ _ _ rfl (htail _ _ _ rfl (htail _ _ _ rfl (htail _ _ _ rfl (htail _ _ _ rfl rfl))))]
  rfl

/-- The array after the message has been written to its front. -/
lemma exists_writeFmt (env : LogEnv) (fmt : Option CText) :
    ∃ buf rest, writeFmt env fmt = some buf ∧ buf.toList = message fmt ++ 0 :: rest := by
  cases fmt with
  | none =>
    refine ⟨blit env.uninit 0 [0] (by decide), env.uninit.toList.drop 1,
      store_of_le (by decide), ?_⟩
    rw [toList_blit]
    rfl
  | some text =>
    obtain ⟨buf, rest, hrun, hbuf⟩ :=
      exists_snprintf env.uninit 0 logLen text.text (by decide) le_rfl
    exact ⟨buf, rest, hrun, hbuf⟩

/-- The array after the error text has been written. -/
lemma exists_writeErrstr {buf : Vector UInt8 logLen} {rest : List UInt8} (errstr : Option CText)
    (hbuf : buf.toList = m ++ 0 :: rest) (hm : (0 : UInt8) ∉ m) :
    ∃ buf', writeErrstr buf errstr = some buf' ∧
      cString buf' = some (logText m (errstr.map CText.text)) := by
  cases errstr with
  | none => exact ⟨buf, rfl, cString_of_toList hbuf hm⟩
  | some errstr =>
    obtain ⟨e, he⟩ := errstr
    by_cases hlt : e.length < logLen - 3
    · obtain ⟨buf', rest', hrun, hbuf'⟩ :=
        exists_snprintf buf e.length (logLen - e.length) (colon e) (by omega) (by omega)
      refine ⟨buf', (if_pos hlt).trans hrun, ?_⟩
      rw [hbuf] at hbuf'
      rw [Option.map_some]
      by_cases hle : e.length ≤ m.length
      · -- it overwrites the message from `e.length` on, terminator included
        have htext : logText m (some e) =
            m.take e.length ++ (colon e).take (logLen - e.length - 1) := by
          rw [logText, if_pos ⟨hlt, hle⟩, Nat.sub_right_comm]
        rw [List.take_append_of_le_length hle] at hbuf'
        rw [htext]
        refine cString_of_toList hbuf' fun h0 => ?_
        rcases List.mem_append.1 h0 with h0 | h0
        · exact hm (List.mem_of_mem_take h0)
        · have hcolon := List.mem_of_mem_take h0
          simp [colon, he] at hcolon
      · -- it is behind the terminator of the message
        obtain ⟨k, hk⟩ : ∃ k, e.length - m.length = k + 1 := ⟨e.length - m.length - 1, by omega⟩
        rw [List.take_append, List.take_of_length_le (by omega), hk, List.take_succ_cons,
          List.append_assoc, List.append_assoc, List.cons_append] at hbuf'
        rw [logText, if_neg fun h => hle h.2]
        exact cString_of_toList hbuf' hm
    · refine ⟨buf, if_neg hlt, ?_⟩
      rw [Option.map_some, logText, if_neg fun h => hlt h.1]
      exact cString_of_toList hbuf hm

/-- What `event_logv_` does. -/
lemma eventLogv_eq (h : ¬ Suppressed env severity) :
    eventLogv env severity errstr fmt =
      some (eventLog env severity (logText (message fmt) (errstr.map CText.text))) := by
  obtain ⟨buf, rest, hmsg, hbuf⟩ := exists_writeFmt env fmt
  obtain ⟨buf', herr, hstr⟩ := exists_writeErrstr errstr hbuf (zero_notMem_message fmt)
  have hmask : ¬ (severity = eventLogDebug ∧ env.debugLoggingMask = 0) := h
  rw [eventLogv, if_neg hmask, hmsg, Option.bind_some, herr, Option.bind_some, hstr,
    Option.bind_some]

lemma logs_eventLogv_iff (h : ¬ Suppressed env severity) :
    Logs (eventLogv env severity errstr fmt) t ↔
      logText (message fmt) (errstr.map CText.text) = t := by
  rw [eventLogv_eq h]
  constructor
  · rintro ⟨_, hrun, hlog⟩
    obtain rfl := Option.some.inj hrun
    rw [logged_eventLog] at hlog
    exact List.head_eq_of_cons_eq hlog
  · rintro rfl
    exact ⟨_, rfl, logged_eventLog⟩

/-- Leaving the program logs nothing. -/
lemma logs_eventExit_iff {x : Option (List LogAct)} :
    Logs (x.map (· ++ eventExit env eval)) t ↔ Logs x t := by
  constructor
  · rintro ⟨acts, hrun, hlog⟩
    obtain ⟨acts', rfl, rfl⟩ := Option.map_eq_some_iff.1 hrun
    rw [logged_append, logged_eventExit, List.append_nil] at hlog
    exact ⟨acts', rfl, hlog⟩
  · rintro ⟨acts, rfl, hlog⟩
    exact ⟨_, rfl, by rw [logged_append, logged_eventExit, List.append_nil, hlog]⟩

/-! ## When it is right -/

@[simp] lemma length_colon : (colon e).length = e.length + 2 := rfl

/-- What is written from a position of a list on, against what belongs there. -/
lemma take_append_eq_iff {k : ℕ} {x y : List UInt8} :
    m.take k ++ x = m ++ y ↔ x = m.drop k ++ y := by
  have hsplit : m ++ y = m.take k ++ (m.drop k ++ y) := by
    rw [← List.append_assoc, List.take_append_drop]
  rw [hsplit, List.append_right_inj]

lemma composed_of_lt (h : m.length < logLen - 3) :
    composed m (some e) = m ++ (colon e).take (logLen - 1 - m.length) := by
  rw [composed, if_pos h, List.take_append, List.take_of_length_le (by omega)]

lemma logText_eq_iff : logText m (some e) = m ↔ Unharmed m e := by
  rw [logText, Unharmed]
  split
  · rename_i h
    have hiff := take_append_eq_iff (m := m) (k := e.length)
      (x := (colon e).take (logLen - 1 - e.length)) (y := [])
    rw [List.append_nil, List.append_nil] at hiff
    rw [hiff]
    constructor
    · exact fun heq => Or.inr (Or.inr heq)
    · rintro (hlong | hlong | heq)
      · omega
      · omega
      · exact heq
  · exact iff_of_true rfl (by omega)

lemma logText_eq_composed_iff : logText m (some e) = composed m (some e) ↔ Composes m (some e) := by
  simp only [Composes]
  by_cases hm : m.length < logLen - 3
  · rw [composed_of_lt hm, if_pos hm, logText]
    split
    · rename_i h
      rw [take_append_eq_iff]
      rcases Nat.lt_or_eq_of_le h.2 with hlt | heq
      · constructor
        · exact fun hx => Or.inr (Or.inr ⟨hlt, h.1, hx⟩)
        · rintro (hlong | hlong | ⟨-, -, hx⟩)
          · omega
          · omega
          · exact hx
      · rw [heq, List.drop_length, List.nil_append]
        exact iff_of_true rfl (Or.inr (Or.inl ⟨rfl, hm⟩))
    · rename_i h
      -- the error text is not seen, but should be
      refine iff_of_false (fun heq => ?_) (by omega)
      have hlen := congrArg List.length heq
      rw [List.length_append, List.length_take, length_colon] at hlen
      omega
  · rw [composed, if_neg hm, logText_eq_iff, Unharmed, if_neg hm, List.append_nil]
    constructor
    · rintro (hlong | hlong | heq)
      · exact Or.inl ⟨by omega, hlong⟩
      · exact Or.inl ⟨by omega, by omega⟩
      · by_cases he : e.length < logLen - 3
        · exact Or.inr (Or.inr ⟨by omega, he, heq⟩)
        · exact Or.inl ⟨by omega, by omega⟩
    · rintro (⟨-, hlong⟩ | ⟨hlen, hlt⟩ | ⟨-, -, heq⟩)
      · exact Or.inl hlong
      · omega
      · exact Or.inr (Or.inr heq)

/-- An error text of at most 510 bytes is logged properly behind a message only if they have the
same length. -/
theorem composes_iff_length_eq (hm : m.length < logLen - 3) (he : e.length ≤ 510) :
    Composes m (some e) ↔ e.length = m.length := by
  constructor
  · rintro (⟨hlong, -⟩ | ⟨heq, -⟩ | ⟨hlt, -, hx⟩)
    · omega
    · exact heq
    · -- the end of the message is missing
      have hlen := congrArg List.length hx
      rw [if_pos hm, List.length_append, List.length_take, List.length_take, List.length_drop,
        length_colon] at hlen
      have : logLen = 1024 := rfl
      omega
  · exact fun heq => Or.inr (Or.inl ⟨heq, hm⟩)

lemma not_suppressed (h : severity ≠ eventLogDebug) : ¬ Suppressed env severity := fun hs => h hs.1

/-- **Where messages are logged as they should be.**  Of the functions for errors, exactly under
`Composes`; of `event_errx`, exactly under `Unharmed`; of the other three, always. -/
theorem logs_iff (env : LogEnv) (fmt : Option CText) (eval sock : ℤ) :
    (∀ severity errstr, ¬ Suppressed env severity →
      (Logs (eventLogv env severity errstr fmt)
          (composed (message fmt) (errstr.map CText.text)) ↔
        Composes (message fmt) (errstr.map CText.text))) ∧
    (Logs (eventErr env eval fmt) (composed (message fmt) (some env.errstr.text)) ↔
      Composes (message fmt) (some env.errstr.text)) ∧
    (Logs (eventWarn env fmt) (composed (message fmt) (some env.errstr.text)) ↔
      Composes (message fmt) (some env.errstr.text)) ∧
    (Logs (eventSocketError env eval sock fmt)
        (composed (message fmt) (some env.errstr.text)) ↔
      Composes (message fmt) (some env.errstr.text)) ∧
    (¬ Suppressed env env.eventLogWarn →
      (Logs (eventSocketWarn env sock fmt)
          (composed (message fmt) (some env.errstr.text)) ↔
        Composes (message fmt) (some env.errstr.text))) ∧
    (Logs (eventErrx env eval fmt) (message fmt) ↔
      Unharmed (message fmt) env.errstr.text) ∧
    (¬ Suppressed env env.eventLogWarn → Logs (eventWarnx env fmt) (message fmt)) ∧
    Logs (eventMsgx env fmt) (message fmt) ∧
    (¬ Suppressed env eventLogDebug → Logs (eventDebugx env fmt) (message fmt)) := by
  have hlogv : ∀ severity errstr, ¬ Suppressed env severity →
      (Logs (eventLogv env severity errstr fmt)
          (composed (message fmt) (errstr.map CText.text)) ↔
        Composes (message fmt) (errstr.map CText.text)) := by
    intro severity errstr h
    rw [logs_eventLogv_iff h]
    cases errstr with
    | none => exact iff_of_true rfl trivial
    | some e => exact logText_eq_composed_iff
  have hplain : ∀ severity, ¬ Suppressed env severity →
      Logs (eventLogv env severity none fmt) (message fmt) := fun severity h =>
    (logs_eventLogv_iff h).2 rfl
  have herr : ¬ Suppressed env eventLogErr := not_suppressed (by decide)
  refine ⟨hlogv, ?_, hlogv _ (some env.errstr) (not_suppressed (by decide)), ?_,
    hlogv _ (some env.errstr), ?_, hplain _, hplain _ (not_suppressed (by decide)), hplain _⟩
  · exact logs_eventExit_iff.trans (hlogv _ (some env.errstr) herr)
  · exact logs_eventExit_iff.trans (hlogv _ (some env.errstr) herr)
  · exact (logs_eventExit_iff.trans (logs_eventLogv_iff herr)).trans logText_eq_iff

/-- What the environment of a program that has failed to find a file may be. -/
def LogEnv.enoent : LogEnv where
  eventLogWarn := 2
  debugLoggingMask := 0
  errno := 2
  strerror _ := ⟨[78, 111], by decide⟩
  logFn := false
  fatalFn := false
  uninit := Vector.replicate _ 255

/-- A message of the length of the error text. -/
theorem logs_iff_same_length :
    Logs (eventErr .enoent 1 (some ⟨[104, 105], by decide⟩)) [104, 105, 58, 32, 78, 111] :=
  (logs_iff .enoent (some ⟨[104, 105], by decide⟩) 1 0).2.1.2
    (Or.inr (Or.inl ⟨rfl, by decide⟩))

/-- Longer messages: the end is lost, also where there is no error to tell of. -/
theorem message_overwritten :
    ¬ Logs (eventErr .enoent 1 (some ⟨[111, 112, 101, 110], by decide⟩))
        (composed [111, 112, 101, 110] (some [78, 111])) ∧
      ¬ Logs (eventErrx .enoent 1 (some ⟨[111, 112, 101, 110], by decide⟩))
        [111, 112, 101, 110] := by
  constructor
  · intro h
    have heq := (logs_eventLogv_iff (not_suppressed (by decide))).1 (logs_eventExit_iff.1 h)
    exact absurd heq (by decide)
  · intro h
    have heq := (logs_eventLogv_iff (not_suppressed (by decide))).1 (logs_eventExit_iff.1 h)
    exact absurd heq (by decide)

end LibeventLearn.Event2
