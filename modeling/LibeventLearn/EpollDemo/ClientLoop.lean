import LibeventLearn.EpollDemo.Client

/-!
# Runs of the client

The loops of `main` of `epollClient.cpp` by themselves, over the lines it reads from the terminal
and whatever its `read` calls return.  They leave the arrays `input` and `recvline` in a state that
later turns depend on: a reply of `MAX_LINE` bytes leaves `recvline` without room for the next
`read`, and what a line leaves in `input` is sent with the shorter lines after it.
-/

namespace LibeventLearn.EpollDemo

open Lib Epoll

/-- One turn of one of the loops. -/
inductive ClientStep where
  /-- `fgets` returns a line, which is sent. -/
  | line (line : List UInt8)
  /-- `read` is called once. -/
  | read (result : ReadResult maxLine)

/-- What the turn does. -/
def clientStep : ClientStep → Client → Option (Client × List ClientCall)
  | .line line, c => sendLine line c
  | .read result, c => readAnswer result c

/-- `fgets` is called in the outer loop and returns a line that fits with its terminator; `read`
is called in the inner loop. -/
def ClientLegal (c : Client) : ClientStep → Prop
  | .line line => c.reading = false ∧ 0 < line.length ∧ line.length < inputLen
  | .read _ => c.reading = true

variable {c : Client} {l : ClientStep} {line bytes : List UInt8} {result : ReadResult maxLine}
  {r : Client × List ClientCall}

/-! ## The array of the answer -/

/-- What the next `read` asks for lies in `recvline` with its terminator. -/
def RequestFits (c : Client) : Prop := c.reading = true → c.count + maxLine ≤ maxLine + 1

/-- What is expected of a turn: the terminator, where one is stored, and what the next `read` may
store lie in `recvline`. -/
def Bounded (_ : Client) (_ : ClientStep) (r : Client × List ClientCall) : Prop :=
  (∀ text, .print text ∈ r.2 → r.1.count ≤ maxLine) ∧ RequestFits r.1

/-- A `read` that returns all it was asked for. -/
def FullRead : ClientStep → Prop
  | .line _ => False
  | .read result => result.bytes.length = maxLine

lemma two_le_maxLine : 2 ≤ maxLine := by decide

/-- The answer is printed where there is room for its terminator. -/
lemma printAnswer_spec (h : c.count ≤ maxLine) :
    ∃ recvline text, printAnswer c =
      some ({ c with recvline := recvline, reading := false }, [.print text]) := by
  have hfit : c.count + [(0 : UInt8)].length ≤ maxLine + 1 := Nat.succ_le_succ h
  obtain ⟨text, htext⟩ : ∃ text, cString (blit c.recvline c.count [0] hfit) = some text := by
    rw [cString, toList_blit, List.append_assoc, List.singleton_append, strlen_append_zero]
    exact ⟨_, rfl⟩
  refine ⟨blit c.recvline c.count [0] hfit, text, ?_⟩
  rw [printAnswer, store_of_le hfit, Option.bind_some, htext, Option.bind_some]

/-- A `read` that returns less than it was asked for ends the answer. -/
lemma readAnswer_notFull (hc : c.count + maxLine ≤ maxLine + 1)
    (hlen : result.bytes.length ≠ maxLine) :
    ∃ r, readAnswer result c = some r ∧ r.1.count ≤ maxLine ∧ r.1.reading = false := by
  have hcount : c.count ≤ maxLine := by have := two_le_maxLine; omega
  cases result with
  | data bytes hpos hle =>
    change bytes.length ≠ maxLine at hlen
    have hfit : c.count + bytes.length ≤ maxLine + 1 := by omega
    rw [readAnswer, store_of_le hfit, Option.bind_some, if_neg hlen]
    obtain ⟨recvline, text, hprint⟩ := printAnswer_spec (c := { c with
      recvline := blit c.recvline c.count bytes hfit, count := c.count + bytes.length })
      (by show c.count + bytes.length ≤ maxLine; omega)
    exact ⟨_, hprint, by show c.count + bytes.length ≤ maxLine; omega, rfl⟩
  | eof =>
    obtain ⟨recvline, text, hprint⟩ := printAnswer_spec hcount
    exact ⟨_, hprint, hcount, rfl⟩
  | error => exact ⟨_, rfl, hcount, rfl⟩

/-- A full `read` leaves no room for the next one. -/
lemma readAnswer_full (hlen : result.bytes.length = maxLine) (hr : readAnswer result c = some r) :
    r.1.count = c.count + maxLine ∧ r.1.reading = c.reading := by
  cases result with
  | eof => cases hlen
  | error => cases hlen
  | data bytes hpos hle =>
    change bytes.length = maxLine at hlen
    simp only [readAnswer, if_pos hlen, Option.bind_eq_some_iff, Option.some.injEq] at hr
    obtain ⟨recvline, -, rfl⟩ := hr
    exact ⟨by show c.count + bytes.length = _; rw [hlen], rfl⟩

lemma bounded_iff (hfits : RequestFits c) (hlegal : ClientLegal c l) :
    (∃ r, clientStep l c = some r ∧ Bounded c l r) ↔ ¬ FullRead l := by
  cases l with
  | line line =>
    obtain ⟨input, hsend, -⟩ := sendLine_spec (c := c) hlegal.2.2
    refine ⟨fun _ h => h, fun _ => ⟨_, hsend, ?_, ?_⟩⟩
    · simp
    · exact fun _ => by show 0 + maxLine ≤ maxLine + 1; omega
  | read result =>
    have hc := hfits hlegal
    constructor
    · rintro ⟨r, hr, -, hnext⟩ hfull
      obtain ⟨hcount, hreading⟩ := readAnswer_full hfull hr
      have hroom := hnext (hreading.trans hlegal)
      have := two_le_maxLine
      omega
    · intro hnot
      obtain ⟨r, hr, hcount, hreading⟩ := readAnswer_notFull hc hnot
      exact ⟨r, hr, fun _ _ => hcount, fun h => by cases hreading.symm.trans h⟩

/-- **`recvline` is overrun exactly in the runs in which a `read` returns `MAX_LINE` bytes.** -/
theorem bounded_iff_not_fullRead (input : Vector UInt8 inputLen) (ls : List ClientStep)
    (hls : Allowed clientStep ClientLegal ls (Client.start input)) :
    Throughout clientStep Bounded ls (Client.start input) ↔ ∀ l ∈ ls, ¬ FullRead l := by
  have hstart : RequestFits (Client.start input) := fun h => by cases h
  rw [throughout_iff_allowed RequestFits (fun s l => bounded_iff) ?_ hstart hls]
  · refine allowed_iff_forall RequestFits (fun s l hs hl hD => ?_) hstart hls
    obtain ⟨r, hr, hb⟩ := (bounded_iff hs hl).2 hD
    exact ⟨r, hr, hb.2⟩
  · intro s l r hs hl hD hr
    obtain ⟨r', hr', hb⟩ := (bounded_iff hs hl).2 hD
    obtain rfl := Option.some.inj (hr'.symm.trans hr)
    exact hb.2

/-- A line and one `read` of its answer. -/
lemma line_read_legal (input : Vector UInt8 inputLen) (line : List UInt8) (hpos : 0 < line.length)
    (hlt : line.length < inputLen) (result : ReadResult maxLine) :
    Allowed clientStep ClientLegal [.line line, .read result] (Client.start input) := by
  refine allowed_cons.2 ⟨⟨rfl, hpos, hlt⟩, fun r hr => ?_⟩
  obtain ⟨input', hsend, -⟩ := sendLine_spec (c := Client.start input) hlt
  obtain rfl := Option.some.inj (hsend.symm.trans hr)
  exact allowed_cons.2 ⟨rfl, fun _ _ => allowed_nil _ _⟩

theorem bounded_iff_not_fullRead_hi :
    Throughout clientStep Bounded
      [.line [104, 105], .read (.data [72, 73] (by decide) (by decide))]
      (Client.start (Vector.replicate _ 0)) :=
  (bounded_iff_not_fullRead _ _ (line_read_legal _ _ (by decide) (by decide) _)).2
    (by simp [FullRead, ReadResult.bytes, maxLine])

/-- An answer of `MAX_LINE` bytes. -/
theorem recvline_overrun :
    ¬ ∀ ls : List ClientStep,
      Allowed clientStep ClientLegal ls (Client.start (Vector.replicate _ 0)) →
        Throughout clientStep Bounded ls (Client.start (Vector.replicate _ 0)) := by
  intro h
  have hlen : (List.replicate maxLine (65 : UInt8)).length = maxLine := List.length_replicate
  have hpos : 0 < (List.replicate maxLine (65 : UInt8)).length := by
    rw [hlen]
    decide
  have hlegal := line_read_legal (Vector.replicate _ 0) [104] (by decide) (by decide)
    (.data _ hpos hlen.le)
  obtain ⟨r, hr, ⟨-, hfits⟩, r', hr', hb, -⟩ := h _ hlegal
  exact (bounded_iff hfits (hlegal.2 r hr).1).1 ⟨r', hr', hb⟩ hlen

/-! ## The array that is sent -/

/-- The cells of `input`. -/
def Client.cell (c : Client) (j : ℕ) : UInt8 := c.input.toList.getD j 0

/-- The lines of a run, the last one first. -/
def earlierLines (ls : List ClientStep) : List (List UInt8) :=
  (ls.filterMap fun l => match l with
    | .line line => some line
    | .read _ => none).reverse

/-- What the lines, the last one first, leave in position `j`: the last one that reaches the
position its character or its terminator, or else what was there before. -/
def leftAt (init : ℕ → UInt8) : List (List UInt8) → ℕ → UInt8
  | [], j => init j
  | line :: earlier, j =>
    if j < line.length then line.getD j 0
    else if j = line.length then 0
    else leftAt init earlier j

lemma leftAt_append (init : ℕ → UInt8) (lines lines' : List (List UInt8)) :
    leftAt init (lines ++ lines') = leftAt (leftAt init lines') lines := by
  funext j
  induction lines with
  | nil => rfl
  | cons line lines ih => simp only [List.cons_append, leftAt, ih]

lemma earlierLines_cons (l : ClientStep) (ls : List ClientStep) :
    earlierLines (l :: ls) = earlierLines ls ++ earlierLines [l] := by
  rw [← List.singleton_append, earlierLines, List.filterMap_append, List.reverse_append]
  rfl

/-- What one line leaves. -/
lemma cell_sendLine (hr : sendLine line c = some r) : r.1.cell = leftAt c.cell [line] := by
  have hlt : line.length < inputLen := by
    by_contra hge
    have hfull : inputLen < 0 + (line ++ [0]).length := by
      simp only [List.length_append, List.length_singleton]
      omega
    rw [sendLine, store_of_lt hfull] at hr
    cases hr
  obtain ⟨input, hsend, hlist⟩ := sendLine_spec (c := c) hlt
  obtain rfl := Option.some.inj (hsend.symm.trans hr)
  funext j
  simp only [Client.cell, leftAt, hlist, List.getD_eq_getElem?_getD]
  split
  · rw [List.getElem?_append_left ‹_›]
  · rw [List.getElem?_append_right (by omega)]
    split
    · subst j
      rw [Nat.sub_self]
      rfl
    · obtain ⟨k, rfl⟩ : ∃ k, j = line.length + 1 + k := ⟨j - (line.length + 1), by omega⟩
      have hsub : line.length + 1 + k - line.length = k + 1 := by omega
      rw [hsub, List.getElem?_cons_succ, List.getElem?_drop]

/-- `read` leaves the array alone. -/
lemma readAnswer_input (hr : readAnswer result c = some r) : r.1.input = c.input := by
  have hprint : ∀ c' : Client, ∀ r, printAnswer c' = some r → r.1.input = c'.input := by
    intro c' r hr
    simp only [printAnswer, Option.bind_eq_some_iff] at hr
    obtain ⟨_, _, _, _, hr⟩ := hr
    rw [← Option.some.inj hr]
  cases result with
  | eof => exact hprint c r hr
  | error =>
    rw [← Option.some.inj hr]
  | data bytes hpos hle =>
    simp only [readAnswer, Option.bind_eq_some_iff] at hr
    obtain ⟨recvline, -, hr⟩ := hr
    split at hr
    · rw [← Option.some.inj hr]
    · have hinput := hprint _ r hr
      exact hinput

/-- **What a run leaves in `input`.** -/
theorem cell_exec {ls : List ClientStep} (hr : exec clientStep ls c = some r) :
    r.1.cell = leftAt c.cell (earlierLines ls) := by
  induction ls generalizing c r with
  | nil =>
    obtain rfl := Option.some.inj hr
    rfl
  | cons l ls ih =>
    obtain ⟨r₁, r₂, h₁, h₂, rfl⟩ := exec_cons_eq_some.1 hr
    rw [earlierLines_cons, leftAt_append]
    refine (ih h₂).trans (congrArg (leftAt · _) ?_)
    cases l with
    | line line => exact cell_sendLine h₁
    | read result =>
      funext j
      exact congrArg (fun input : Vector UInt8 inputLen => input.toList.getD j 0)
        (readAnswer_input h₁)

/-- Two clients send the same for a line exactly if their arrays agree behind it. -/
lemma sent_eq_iff (c₁ c₂ : Client) (h : line.length < inputLen) :
    (sendLine line c₁).map Prod.snd = (sendLine line c₂).map Prod.snd ↔
      ∀ j, line.length < j → j < inputLen → c₁.cell j = c₂.cell j := by
  obtain ⟨input₁, h₁, hlist₁⟩ := sendLine_spec (c := c₁) h
  obtain ⟨input₂, h₂, hlist₂⟩ := sendLine_spec (c := c₂) h
  rw [h₁, h₂, Option.map_some, Option.map_some, hlist₁, hlist₂]
  simp only [Option.some.injEq, List.cons.injEq, ClientCall.send.injEq, List.append_cancel_left_eq,
    and_true, true_and]
  constructor
  · intro hdrop j hj hlt
    have hcell := congrArg (fun l => l.getD (j - (line.length + 1)) 0) hdrop
    have hadd : line.length + 1 + (j - (line.length + 1)) = j := by omega
    simpa only [Client.cell, List.getD_eq_getElem?_getD, List.getElem?_drop, hadd] using hcell
  · intro hcell
    refine List.ext_getElem (by simp) fun k hk₁ hk₂ => ?_
    simp only [List.length_drop, Vector.length_toList] at hk₁
    have hk := hcell (line.length + 1 + k) (by omega) (by omega)
    simp only [Client.cell, List.getD_eq_getElem?_getD] at hk
    rw [List.getElem?_eq_getElem (by simp; omega), List.getElem?_eq_getElem (by simp; omega)] at hk
    simpa using hk

/-- What a run with these lines sends for one more line. -/
def sentAfter (init : Vector UInt8 inputLen) (ls : List ClientStep) (line : List UInt8) :
    Option (List ClientCall) :=
  (exec clientStep ls (Client.start init)).bind fun q => (sendLine line q.1).map Prod.snd

section TwoRuns

variable {init₁ init₂ : Vector UInt8 inputLen} {ls₁ ls₂ : List ClientStep}
  {q₁ q₂ : Client × List ClientCall}

lemma sentAfter_eq_iff (h₁ : exec clientStep ls₁ (Client.start init₁) = some q₁)
    (h₂ : exec clientStep ls₂ (Client.start init₂) = some q₂) (hline : line.length < inputLen) :
    sentAfter init₁ ls₁ line = sentAfter init₂ ls₂ line ↔
      ∀ j, line.length < j → j < inputLen →
        leftAt (Client.start init₁).cell (earlierLines ls₁) j =
          leftAt (Client.start init₂).cell (earlierLines ls₂) j := by
  rw [sentAfter, sentAfter, h₁, h₂, Option.bind_some, Option.bind_some, sent_eq_iff _ _ hline,
    cell_exec h₁, cell_exec h₂]

end TwoRuns

lemma cell_start_replicate (a : UInt8) {j : ℕ} (hj : j < inputLen) :
    (Client.start (Vector.replicate _ a)).cell j = a := by
  simp [Client.cell, Client.start, List.getD_eq_getElem?_getD, hj]

/-- **What two runs send for a line is the same exactly if they have left the same behind it**,
and what is sent depends on the line alone exactly if the line fills the array. -/
theorem sent_iff (line : List UInt8) (hline : line.length < inputLen) :
    (∀ init₁ init₂ ls₁ ls₂ q₁ q₂,
      exec clientStep ls₁ (Client.start init₁) = some q₁ →
      exec clientStep ls₂ (Client.start init₂) = some q₂ →
      (sentAfter init₁ ls₁ line = sentAfter init₂ ls₂ line ↔
        ∀ j, line.length < j → j < inputLen →
          leftAt (Client.start init₁).cell (earlierLines ls₁) j =
            leftAt (Client.start init₂).cell (earlierLines ls₂) j)) ∧
      ((∀ init₁ init₂ ls₁ ls₂ q₁ q₂,
        exec clientStep ls₁ (Client.start init₁) = some q₁ →
        exec clientStep ls₂ (Client.start init₂) = some q₂ →
        sentAfter init₁ ls₁ line = sentAfter init₂ ls₂ line) ↔ line.length + 1 = inputLen) := by
  refine ⟨fun _ _ _ _ _ _ h₁ h₂ => sentAfter_eq_iff h₁ h₂ hline, fun h => ?_, fun h => ?_⟩
  · by_contra hne
    have hlast : inputLen - 1 < inputLen := by decide
    -- two clients that differ in the last cell of the array
    have heq := (sentAfter_eq_iff rfl rfl hline).1
      (h (Vector.replicate _ 0) (Vector.replicate _ 1) [] [] _ _ rfl rfl) (inputLen - 1)
      (by omega) hlast
    have hcells := (cell_start_replicate 0 hlast).symm.trans
      (heq.trans (cell_start_replicate 1 hlast))
    exact absurd hcells (by decide)
  · intro init₁ init₂ ls₁ ls₂ q₁ q₂ h₁ h₂
    exact (sentAfter_eq_iff h₁ h₂ hline).2 fun j hj hlt => by omega

/-- What is on the stack is sent behind a line. -/
theorem sent_iff_stack :
    sentAfter (Vector.replicate _ 0) [] [104, 105] ≠
      sentAfter (Vector.replicate _ 1) [] [104, 105] := by
  rw [Ne, (sent_iff [104, 105] (by decide)).1 _ _ _ _ _ _ rfl rfl]
  intro h
  have hcells := (cell_start_replicate 0 (by decide)).symm.trans
    ((h 3 (by decide) (by decide)).trans (cell_start_replicate 1 (by decide)))
  exact absurd hcells (by decide)

/-- A line and an answer that fails. -/
lemma exists_line_error (init : Vector UInt8 inputLen) (line : List UInt8)
    (hline : line.length < inputLen) :
    ∃ q, exec clientStep [.line line, .read .error] (Client.start init) = some q := by
  obtain ⟨input, hsend, -⟩ := sendLine_spec (c := Client.start init) hline
  exact ⟨_, exec_cons_eq_some.2 ⟨_, _, hsend, rfl, rfl⟩⟩

/-- What is sent for a line after another, longer one. -/
theorem longer_line_sent :
    ¬ ∀ line₁ line₂ : List UInt8, line₁.length < inputLen → line₂.length < inputLen →
      sentAfter (Vector.replicate _ 0) [.line line₁, .read .error] [10] =
        sentAfter (Vector.replicate _ 0) [.line line₂, .read .error] [10] := by
  intro h
  obtain ⟨q₁, h₁⟩ := exists_line_error (Vector.replicate _ 0) [97, 98, 99, 10] (by decide)
  obtain ⟨q₂, h₂⟩ := exists_line_error (Vector.replicate _ 0) [97, 98, 100, 10] (by decide)
  have heq := (sentAfter_eq_iff h₁ h₂ (by decide)).1 (h _ _ (by decide) (by decide)) 2
    (by decide) (by decide)
  exact absurd heq (by decide)

end LibeventLearn.EpollDemo
