import Mathlib.Data.List.Basic
import SambaProvider.Transfer.Task

/-!
# What a finished transfer tells its client

Both tasks hold their descriptor and the file as resources of one `try`
statement, so both are closed, the descriptor normally, before the
`catch` block runs and closes it with the error. What the peer learns is
therefore always a normal close.
-/

namespace SambaProvider

open Lib TaskProg

namespace Transfer

variable {sc : Script} {t t' : Transfer} {mode : String} {res : Result Exn Unit}

/-! ## The loops -/

/-- How a loop of `total` calls on the file ends: after `n` calls that
succeed it is done, or the next one raises. -/
def LoopEnds (sc : Script) (start total n : ℕ) (res : Result Exn Unit) : Prop :=
  (∀ i < n, sc.callFault (start + i) = none) ∧
    ((n = total ∧ res = .returned ()) ∨
      (n < total ∧ ∃ e, sc.callFault (start + n) = some e ∧ res = .threw e.1))

theorem LoopEnds.next {start total n : ℕ} (h0 : sc.callFault start = none)
    (h : LoopEnds sc (start + 1) total n res) : LoopEnds sc start (total + 1) (n + 1) res := by
  obtain ⟨hclear, hend⟩ := h
  refine ⟨fun i hi => ?_, ?_⟩
  · rcases i with _ | i
    · exact h0
    · have := hclear i (by omega)
      rwa [show start + 1 + i = start + (i + 1) by omega] at this
  · rw [show start + 1 + n = start + (n + 1) by omega] at hend
    rcases hend with ⟨hn, hres⟩ | ⟨hn, he⟩
    · exact .inl ⟨by omega, hres⟩
    · exact .inr ⟨by omega, he⟩

theorem LoopEnds.fault {start total : ℕ} {e : IOExn} (h0 : sc.callFault start = some e)
    (ht : 0 < total) : LoopEnds sc start total 0 (.threw e.1) :=
  ⟨fun i hi => absurd hi (Nat.not_lt_zero i), .inr ⟨ht, e, h0, rfl⟩⟩

/-- A loop gets as far as its calls succeed. -/
theorem LoopEnds.le_iff {start total n m : ℕ} (h : LoopEnds sc start total n res)
    (hm : m ≤ total) : m ≤ n ↔ ∀ i < m, sc.callFault (start + i) = none := by
  obtain ⟨hclear, hend⟩ := h
  refine ⟨fun hmn i hi => hclear i (by omega), fun hall => ?_⟩
  rcases hend with ⟨hn, -⟩ | ⟨-, e, he, -⟩
  · omega
  · by_contra hlt
    rw [hall n (by omega)] at he
    cases he

theorem LoopEnds.result {start total n : ℕ} (h : LoopEnds sc start total n res) :
    res = .returned () ∨ ∃ e : IOExn, res = .threw e.1 := by
  obtain ⟨-, ⟨-, h⟩ | ⟨-, e, -, h⟩⟩ := h
  · exact .inl h
  · exact .inr ⟨e, h⟩

/-! ## The calls -/

/-- A call that may fail throws its fault, and else goes on. -/
theorem run_answer {α : Type} {fault : Option IOExn} {ok : α × Transfer} :
    (Prog.ofExcept (answer t fault ok).1 : TaskProg α).run (exec sc) (answer t fault ok).2 =
      match fault with
      | some e => (.threw e.1, { t with raised := t.raised ++ [e.1] })
      | none => (.returned ok.1, ok.2) := by
  rcases fault with _ | e <;> rfl

theorem run_openFile :
    (openFile mode).run (exec sc) t = match sc.openFault with
      | some e => (.threw e.1, { t with raised := t.raised ++ [e.1] })
      | none => (.returned (), if mode = "w" then { t with file := [], offset := 0 } else t) :=
  run_answer

theorem run_readFile {m : ℕ} :
    (readFile m).run (exec sc) t = match sc.callFault t.calls with
      | some e => (.threw e.1, { t with calls := t.calls + 1, raised := t.raised ++ [e.1] })
      | none => (.returned (t.pending.headD []),
          { t with calls := t.calls + 1, pending := t.pending.tail }) :=
  run_answer

theorem run_writeFile {b : List UInt8} :
    (writeFile b).run (exec sc) t = match sc.callFault t.calls with
      | some e => (.threw e.1, { t with calls := t.calls + 1, raised := t.raised ++ [e.1] })
      | none => (.returned (stored (sc.ready t.calls) b.length),
          { t with
            calls := t.calls + 1
            file := writeAt t.file t.offset (b.take (stored (sc.ready t.calls) b.length))
            offset := t.offset + stored (sc.ready t.calls) b.length }) :=
  run_answer

theorem run_closeFile :
    closeFile.run (exec sc) t = match sc.closeFault with
      | some e => (.threw e.1, { t with raised := t.raised ++ [e.1] })
      | none => (.returned (), t) :=
  run_answer

theorem run_readPfd {m : ℕ} :
    (readPfd m).run (exec sc) t =
      (.returned (t.pending.headD []), { t with pending := t.pending.tail }) := rfl

theorem run_writePfd {b : List UInt8} :
    (writePfd b).run (exec sc) t =
      (.returned (), { t with pipe.bytes := t.pipe.bytes ++ b }) := rfl

theorem run_closePfd :
    closePfd.run (exec sc) t = (.returned (), { t with pipe := t.pipe.close t.pfd .ok }) := rfl

theorem run_closePfdWithError {m : String} :
    (closePfdWithError m).run (exec sc) t =
      (.returned (), { t with pipe := t.pipe.close t.pfd (.error m) }) := rfl

theorem run_onTaskFinished {st : TaskStatus} :
    (onTaskFinished st).run (exec sc) t =
      (.returned (), { t with finished := t.finished ++ [st] }) := rfl

/-! ## The loops

One round of each, as the fault and the next piece decide it. -/

theorem copy_read_succ {fuel : ℕ} (hne : ∀ b ∈ t.pending, b ≠ []) :
    (ReadFileTask.copy (fuel + 1)).run (exec sc) t =
      match sc.callFault t.calls, t.pending with
      | some e, _ => (.threw e.1, { t with calls := t.calls + 1, raised := t.raised ++ [e.1] })
      | none, [] => (.returned (), { t with calls := t.calls + 1, pending := [] })
      | none, b :: bs => (ReadFileTask.copy fuel).run (exec sc)
          { t with calls := t.calls + 1, pending := bs, pipe.bytes := t.pipe.bytes ++ b } := by
  rw [ReadFileTask.copy, Prog.run_bind, run_readFile]
  rcases sc.callFault t.calls with _ | e
  · rcases hp : t.pending with _ | ⟨b, bs⟩
    · simp [Prog.continueWith]
    · have hb : 0 < b.length := List.length_pos_iff.mpr (hne b (by simp [hp]))
      simp [Prog.continueWith, hb, Prog.run_bind, run_writePfd]
  · rfl

theorem copy_write_succ {fuel : ℕ} (hne : ∀ b ∈ t.pending, b ≠ []) :
    (WriteFileTask.copy (fuel + 1)).run (exec sc) t =
      match t.pending, sc.callFault t.calls with
      | [], _ => (.returned (), { t with pending := [] })
      | _ :: bs, some e => (.threw e.1,
          { t with calls := t.calls + 1, pending := bs, raised := t.raised ++ [e.1] })
      | b :: bs, none => (WriteFileTask.copy fuel).run (exec sc)
          { t with
            calls := t.calls + 1
            pending := bs
            file := writeAt t.file t.offset (b.take (stored (sc.ready t.calls) b.length))
            offset := t.offset + stored (sc.ready t.calls) b.length } := by
  rw [WriteFileTask.copy, Prog.run_bind, run_readPfd]
  rcases hp : t.pending with _ | ⟨b, bs⟩
  · simp [Prog.continueWith]
  · have hb : 0 < b.length := List.length_pos_iff.mpr (hne b (by simp [hp]))
    rcases hf : sc.callFault t.calls with _ | e <;>
      simp [Prog.continueWith, hb, Prog.run_bind, run_writeFile, hf]

/-- **The download loop** delivers the pieces of the reads that
succeed. The last read finds the end of the file. -/
theorem copy_read {fuel : ℕ} (hfuel : t.pending.length < fuel) (hne : ∀ b ∈ t.pending, b ≠ []) :
    ∃ n res t', (ReadFileTask.copy fuel).run (exec sc) t = (res, t') ∧
      LoopEnds sc t.calls (t.pending.length + 1) n res ∧
      t'.pfd = t.pfd ∧
      t'.pipe = { t.pipe with bytes := t.pipe.bytes ++ (t.pending.take n).flatten } := by
  induction fuel generalizing t with
  | zero => omega
  | succ fuel ih =>
    rw [copy_read_succ hne]
    rcases hf : sc.callFault t.calls with _ | e
    · rcases hp : t.pending with _ | ⟨b, bs⟩
      · have hclear : ∀ i < 1, sc.callFault (t.calls + i) = none := by
          intro i hi
          rwa [show t.calls + i = t.calls by omega]
        exact ⟨1, _, _, rfl, ⟨hclear, .inl ⟨rfl, rfl⟩⟩, rfl, by simp⟩
      · rw [hp] at hfuel hne
        obtain ⟨n, res, t', hrun, hends, hpfd, hpipe⟩ :=
          ih (t := { t with calls := t.calls + 1, pending := bs, pipe.bytes := t.pipe.bytes ++ b })
            (by simpa using hfuel) (fun x hx => hne x (List.mem_cons_of_mem b hx))
        exact ⟨n + 1, res, t', hrun, hends.next hf, hpfd, by simp [hpipe]⟩
    · exact ⟨0, _, _, rfl, .fault hf (by omega), rfl, by simp⟩

/-- The bytes of the pieces that the writes from the n-th on store. -/
def storedBytes (sc : Script) : ℕ → List (List UInt8) → List UInt8
  | _, [] => []
  | n, b :: bs => b.take (stored (sc.ready n) b.length) ++ storedBytes sc (n + 1) bs

theorem writeAt_length (bytes new : List UInt8) :
    writeAt bytes bytes.length new = bytes ++ new := by
  simp [writeAt]

/-- The exception a part of the task ended with. -/
def thrown : Result Exn Unit → List Exn
  | .threw x => [x]
  | _ => []

/-- **The upload loop** appends to the file what the writes store. -/
theorem copy_write {fuel : ℕ} (hfuel : t.pending.length < fuel) (hne : ∀ b ∈ t.pending, b ≠ [])
    (hoff : t.offset = t.file.length) :
    ∃ n res t', (WriteFileTask.copy fuel).run (exec sc) t = (res, t') ∧
      LoopEnds sc t.calls t.pending.length n res ∧
      t'.pfd = t.pfd ∧ t'.pipe = t.pipe ∧ t'.finished = t.finished ∧
      t'.raised = t.raised ++ thrown res ∧
      t'.file = t.file ++ storedBytes sc t.calls (t.pending.take n) := by
  induction fuel generalizing t with
  | zero => omega
  | succ fuel ih =>
    rw [copy_write_succ hne]
    rcases hp : t.pending with _ | ⟨b, bs⟩
    · have hclear : ∀ i < 0, sc.callFault (t.calls + i) = none :=
        fun i hi => absurd hi (Nat.not_lt_zero i)
      exact ⟨0, _, _, rfl, ⟨hclear, .inl ⟨rfl, rfl⟩⟩, rfl, rfl, rfl, by simp [thrown],
        by simp [storedBytes]⟩
    · rcases hf : sc.callFault t.calls with _ | e
      · rw [hp] at hfuel hne
        have hb : (b.take (stored (sc.ready t.calls) b.length)).length =
            stored (sc.ready t.calls) b.length := by
          simp [stored]
        obtain ⟨n, res, t', hrun, hends, hpfd, hpipe, hfin, hraised, hfile⟩ :=
          ih (t := { t with
              calls := t.calls + 1
              pending := bs
              file := writeAt t.file t.offset (b.take (stored (sc.ready t.calls) b.length))
              offset := t.offset + stored (sc.ready t.calls) b.length })
            (by simpa using hfuel) (fun x hx => hne x (List.mem_cons_of_mem b hx))
            (by rw [hoff, writeAt_length, List.length_append, hb])
        refine ⟨n + 1, res, t', hrun, hends.next hf, hpfd, hpipe, hfin, hraised, ?_⟩
        rw [hfile, hoff, writeAt_length, List.take_succ_cons, storedBytes, List.append_assoc]
      · exact ⟨0, _, _, rfl, .fault hf (by simp), rfl, rfl, rfl, rfl, by simp [storedBytes]⟩

/-! ## The `try` statement -/

theorem close_close (p : Pipe) (e : PipeEnd) (a b : CloseStatus) :
    (p.close e a).close e b = p.close e a := by
  cases e <;> simp [Pipe.close]

/-- The `try` statement of both tasks, around their loops. -/
def session (mode : String) (copy : TaskProg Unit) : TaskProg Unit :=
  (Prog.withResource closePfd do
    openFile mode
    Prog.withResource closeFile copy).catching Exn.isIOException
  fun e => closePfdWithError e.message

/-- **A file that cannot be opened** leaves the descriptor closed
normally: the `catch` block comes too late. -/
theorem run_session_openFault {copy : TaskProg Unit} {e : IOExn} (h : sc.openFault = some e) :
    (session mode copy).run (exec sc) t =
      (.returned (), { t with
        raised := t.raised ++ [e.1]
        pipe := t.pipe.close t.pfd .ok }) := by
  simp [session, Prog.run_catching, Prog.run_withResource, Prog.run_bind, run_openFile, h,
    Prog.continueWith, run_closePfd, run_closePfdWithError, close_close]

/-- **And so does every other way the transfer can end.** -/
theorem run_session {copy : TaskProg Unit} (h : sc.openFault = none)
    (hcopy : copy.run (exec sc) (if mode = "w" then { t with file := [], offset := 0 } else t) =
      (res, t'))
    (hres : res = .returned () ∨ ∃ e : IOExn, res = .threw e.1) :
    (session mode copy).run (exec sc) t =
      (.returned (), { t' with
        raised := t'.raised ++ (sc.closeFault.map Subtype.val).toList
        pipe := t'.pipe.close t'.pfd .ok }) := by
  rcases hres with rfl | ⟨e, rfl⟩ <;> rcases hc : sc.closeFault with _ | x <;>
    simp [session, Prog.run_catching, Prog.run_withResource, Prog.run_bind, run_openFile, h,
      Prog.continueWith, hcopy, run_closeFile, hc, run_closePfd, run_closePfdWithError,
      close_close]

/-! ## A download -/

variable {file : List UInt8}

/-- A client of `openDocument("r")` that meets a clean end of stream has
the whole file. -/
def DownloadHonest (sc : Script) (t : Transfer) : Prop :=
  t.pipe.CleanEnd → t.pipe.bytes = sc.pieces.content

/-- The failure, if there is one, comes after the last byte. -/
def FailsOnlyAfterContent (sc : Script) : Prop :=
  sc.pieces.list = [] ∨
    (sc.openFault = none ∧ ∀ i < sc.pieces.list.length, sc.callFault i = none)

/-- Some pieces make up the whole content only if they are all of
them. -/
theorem take_flatten_eq_content {ps : Pieces} {n : ℕ} :
    (ps.list.take n).flatten = ps.content ↔ ps.list.length ≤ n := by
  rw [Pieces.content]
  refine ⟨fun h => ?_, fun h => by rw [List.take_of_length_le h]⟩
  by_contra hle
  have hlt : n < ps.list.length := by omega
  have hdrop : ((ps.list.drop n).flatten).length = 0 := by
    have hlen := congrArg List.length h
    rw [← List.take_append_drop n ps.list, List.flatten_append, List.length_append] at hlen
    simp only [List.take_append_drop] at hlen
    omega
  have hmem : ps.list[n] ∈ ps.list.drop n :=
    List.mem_drop_iff_getElem.mpr ⟨0, by omega, by simp⟩
  have hnil : ps.list[n] = [] := by
    rw [List.length_eq_zero_iff, List.flatten_eq_nil_iff] at hdrop
    exact hdrop _ hmem
  exact ps.ne_nil _ (List.getElem_mem _) hnil

theorem openDocument_read_eq : openDocument "r" sc file =
    .ok ((session "r" (ReadFileTask.copy (sc.pieces.list.length + 1))).run (exec sc)
      (start .read sc file)) := rfl

/-- **How a download ends.** The pipe is closed normally, over the pieces
of the reads that came before the first failure. -/
theorem openDocument_read (sc : Script) (file : List UInt8) :
    ∃ t, openDocument "r" sc file = .ok (.returned (), t) ∧ t.pipe.CleanEnd ∧
      (t.pipe.bytes = sc.pieces.content ↔ FailsOnlyAfterContent sc) := by
  rw [openDocument_read_eq]
  rcases ho : sc.openFault with _ | e
  · obtain ⟨n, res, t', hcopy, hends, hpfd, hpipe⟩ :=
      @copy_read sc (start .read sc file) _ (Nat.lt_succ_self _) sc.pieces.ne_nil
    refine ⟨_, congrArg Except.ok (run_session ho hcopy hends.result), ?_, ?_⟩
    · simp [Pipe.CleanEnd, hpfd, hpipe, start, PipeEnd.peer, Pipe.status, Pipe.close]
    · have hle := hends.le_iff (m := sc.pieces.list.length) (Nat.le_succ _)
      simp only [start, Nat.zero_add] at hle
      simp only [Pipe.bytes_close, hpipe, start, List.nil_append, take_flatten_eq_content,
        FailsOnlyAfterContent, ho, true_and, hle]
      refine ⟨.inr, fun h => h.elim (fun hnil i hi => ?_) id⟩
      simp [hnil] at hi
  · refine ⟨_, congrArg Except.ok (run_session_openFault ho), ?_, ?_⟩
    · simp [Pipe.CleanEnd, start, PipeEnd.peer, Pipe.status, Pipe.close]
    · have hnil : ([] : List UInt8) = sc.pieces.content ↔ sc.pieces.list = [] := by
        have h0 : (sc.pieces.list.take 0).flatten = sc.pieces.content ↔ _ :=
          take_flatten_eq_content
        simpa using h0
      simp [FailsOnlyAfterContent, start, ho, hnil]

/-! ## An upload -/

/-- A failed upload is noticed: the client's `checkError` raises, and the
callback is not told of a success. -/
def UploadHonest (t : Transfer) : Prop :=
  t.raised ≠ [] → t.pipe.ErrorSeenBy .write ∧ .succeeded ∉ t.finished

/-- No call on the file raises. -/
def UploadClear (sc : Script) : Prop :=
  sc.openFault = none ∧ sc.closeFault = none ∧
    ∀ i < sc.pieces.list.length, sc.callFault i = none

/-- Every write stores the whole of its piece. -/
def WritesWhole (sc : Script) : Prop :=
  ∀ i (h : i < sc.pieces.list.length),
    stored (sc.ready i) sc.pieces.list[i].length = sc.pieces.list[i].length

theorem openDocument_write_eq : openDocument "w" sc file =
    .ok ((session "w" (WriteFileTask.copy (sc.pieces.list.length + 1)) >>=
      fun _ => onTaskFinished .succeeded).run (exec sc) (start .write sc file)) := rfl

theorem LoopEnds.thrown_eq_nil_iff {start total n : ℕ} (h : LoopEnds sc start total n res) :
    thrown res = [] ↔ ∀ i < total, sc.callFault (start + i) = none := by
  rw [← h.le_iff (Nat.le_refl total)]
  obtain ⟨-, ⟨hn, rfl⟩ | ⟨hn, e, -, rfl⟩⟩ := h
  · simp [thrown, hn]
  · simp only [thrown, List.cons_ne_nil, false_iff]
    omega

/-- **How an upload ends.** The pipe is closed normally and the callback
is told of a success, whatever happened; where nothing did, the file is
what the writes stored. -/
theorem openDocument_write (sc : Script) (file : List UInt8) :
    ∃ t, openDocument "w" sc file = .ok (.returned (), t) ∧
      t.pipe.status .read = some .ok ∧ t.finished = [.succeeded] ∧
      (t.raised = [] ↔ UploadClear sc) ∧
      (t.raised = [] → t.file = storedBytes sc 0 sc.pieces.list) := by
  rw [openDocument_write_eq, Prog.run_bind]
  rcases ho : sc.openFault with _ | e
  · obtain ⟨n, res, t', hcopy, hends, hpfd, hpipe, hfin, hraised, hfile⟩ :=
      @copy_write sc { start .write sc file with file := [], offset := 0 } _
        (Nat.lt_succ_self _) sc.pieces.ne_nil rfl
    have hnil := hends.thrown_eq_nil_iff
    have hle := hends.le_iff (Nat.le_refl _)
    simp only [start, Nat.zero_add] at hnil hle
    have hs : (session "w" (WriteFileTask.copy (sc.pieces.list.length + 1))).run (exec sc)
        (start .write sc file) = _ := run_session ho hcopy hends.result
    rw [hs, Prog.continueWith, run_onTaskFinished]
    refine ⟨_, rfl, ?_, ?_, ?_, ?_⟩
    · simp [hpfd, hpipe, start, PipeEnd.peer, Pipe.status, Pipe.close]
    · simp [hfin, start]
    · simp [hraised, start, UploadClear, ho, hnil, and_comm]
    · intro h
      simp only [hraised, List.append_eq_nil_iff] at h
      have hall : sc.pieces.list.take n = sc.pieces.list :=
        List.take_of_length_le (hle.mpr (hnil.mp h.1.2))
      rw [hfile]
      change storedBytes sc 0 (sc.pieces.list.take n) = storedBytes sc 0 sc.pieces.list
      rw [hall]
  · rw [run_session_openFault ho, Prog.continueWith, run_onTaskFinished]
    refine ⟨_, rfl, ?_, ?_, ?_, ?_⟩
    · simp [start, PipeEnd.peer, Pipe.status, Pipe.close]
    · simp [start]
    · simp [UploadClear, ho]
    · simp

/-! ## Failures -/

/-- **What holds of failed transfers.** A download is honest exactly when
no failure comes before its last byte is delivered, an upload exactly
when there is no failure to report. -/
theorem honest_iff (sc : Script) (file : List UInt8) :
    (∃ t, openDocument "r" sc file = .ok (.returned (), t) ∧
      (DownloadHonest sc t ↔ FailsOnlyAfterContent sc)) ∧
    (∃ t, openDocument "w" sc file = .ok (.returned (), t) ∧
      (UploadHonest t ↔ UploadClear sc)) := by
  obtain ⟨r, hr, hclean, hbytes⟩ := openDocument_read sc file
  obtain ⟨w, hw, hstatus, hfin, hraised, -⟩ := openDocument_write sc file
  refine ⟨⟨r, hr, ?_⟩, ⟨w, hw, ?_⟩⟩
  · rw [← hbytes]
    exact ⟨fun h => h hclean, fun h _ => h⟩
  · have hsilent : ¬ (w.pipe.ErrorSeenBy .write ∧ .succeeded ∉ w.finished) := by
      simp [hfin]
    rw [← hraised, UploadHonest]
    exact ⟨fun h => by_contra fun hne => hsilent (h hne), fun h hne => absurd h hne⟩

/-- A file of one byte whose only read fails. -/
def failingRead : Script where
  pieces := ⟨[[7]], by simp, by simp [bufferCapacity]⟩
  openFault := none
  callFault := fun _ => some ⟨⟨.ioException, "Failed to read file. Fd: 1"⟩, rfl⟩
  closeFault := none
  ready := fun _ => 1

/-- The client of the failing download sees an empty file that ends
normally; the same failure of a write goes unnoticed, too. -/
theorem not_honest_failingRead :
    ∃ r w, openDocument "r" failingRead [7] = .ok (.returned (), r) ∧
      openDocument "w" failingRead [] = .ok (.returned (), w) ∧
      ¬ DownloadHonest failingRead r ∧ ¬ UploadHonest w := by
  obtain ⟨r, hr, hclean, hbytes⟩ := openDocument_read failingRead [7]
  obtain ⟨w, hw, -, hfin, hraised, -⟩ := openDocument_write failingRead []
  have hlate : ¬ FailsOnlyAfterContent failingRead := by
    rintro (h | h)
    · cases h
    · cases h.2 0 (by decide)
  have hfault : ¬ UploadClear failingRead := fun h => by cases h.2.2 0 (by decide)
  refine ⟨r, w, hr, hw, fun h => hlate (hbytes.mp (h hclean)), fun h => ?_⟩
  have hsucceeded := (h fun hnil => hfault (hraised.mp hnil)).2
  rw [hfin] at hsucceeded
  simp at hsucceeded

/-! ## Short writes -/

/-- The file of an upload without exceptions is what the client wrote. -/
def UploadComplete (sc : Script) (t : Transfer) : Prop :=
  t.raised = [] → t.file = sc.pieces.content

theorem length_storedBytes_le (n : ℕ) (ps : List (List UInt8)) :
    (storedBytes sc n ps).length ≤ ps.flatten.length := by
  induction ps generalizing n with
  | nil => simp [storedBytes]
  | cons b bs ih =>
    have := ih (n + 1)
    simp only [storedBytes, List.length_append, List.length_take, List.flatten_cons]
    omega

/-- The writes store everything exactly if none of them is short. -/
theorem storedBytes_eq_flatten_iff (n : ℕ) (ps : List (List UInt8)) :
    storedBytes sc n ps = ps.flatten ↔
      ∀ i (h : i < ps.length), stored (sc.ready (n + i)) ps[i].length = ps[i].length := by
  induction ps generalizing n with
  | nil => simp [storedBytes]
  | cons b bs ih =>
    have hle := @length_storedBytes_le sc (n + 1) bs
    have hk : stored (sc.ready n) b.length ≤ b.length := Nat.min_le_left _ _
    rw [storedBytes, List.flatten_cons]
    constructor
    · intro h
      have hlen := congrArg List.length h
      simp only [List.length_append, List.length_take] at hlen
      have hb : stored (sc.ready n) b.length = b.length := by omega
      rw [hb, List.take_length, List.append_cancel_left_eq, ih] at h
      intro i hi
      rcases i with _ | i
      · exact hb
      · have := h i (by simpa using hi)
        rwa [show n + 1 + i = n + (i + 1) by omega] at this
    · intro h
      have hb : stored (sc.ready n) b.length = b.length := h 0 (by simp)
      rw [hb, List.take_length, List.append_cancel_left_eq, ih]
      intro i hi
      have := h (i + 1) (by simpa using hi)
      rwa [show n + (i + 1) = n + 1 + i by omega] at this

/-- **Every byte reaches the share exactly when no write is short.** The
loop does not look at the count a write returns, so what a short write
leaves over is lost, and without an exception. -/
theorem uploadComplete_iff (sc : Script) (file : List UInt8) :
    ∃ t, openDocument "w" sc file = .ok (.returned (), t) ∧
      (UploadComplete sc t ↔ (UploadClear sc → WritesWhole sc)) := by
  obtain ⟨t, ht, -, -, hraised, hfile⟩ := openDocument_write sc file
  refine ⟨t, ht, ?_⟩
  have hwhole := @storedBytes_eq_flatten_iff sc 0 sc.pieces.list
  simp only [Nat.zero_add] at hwhole
  rw [UploadComplete, ← hraised, WritesWhole, ← hwhole]
  exact ⟨fun h hr => hfile hr ▸ h hr, fun h hr => (hfile hr).trans (h hr)⟩

/-- Two bytes in one piece, to a share that takes one at a time. -/
def shortWrite : Script where
  pieces := ⟨[[7, 8]], by simp, by simp [bufferCapacity]⟩
  openFault := none
  callFault := fun _ => none
  closeFault := none
  ready := fun _ => 1

/-- The upload ends without an exception and the second byte is lost. -/
theorem not_uploadComplete_shortWrite :
    ∃ t, openDocument "w" shortWrite [] = .ok (.returned (), t) ∧
      ¬ UploadComplete shortWrite t := by
  refine ⟨_, rfl, fun h => ?_⟩
  have hfile := h rfl
  revert hfile
  decide

end Transfer

end SambaProvider
