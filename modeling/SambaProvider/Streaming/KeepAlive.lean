import SambaProvider.Streaming.HttpSession

/-!
# A connection that is kept alive

Whole runs of the loop around `execute`. Where nothing is waited for too
long, the bytes alone decide what is sent, and not the pieces they arrive
in: the connection refines an exchange that has no pieces. Requests that
follow each other are answered one by one; a head that is cut off or too
long is answered again and again; and what arrives together with the end of
a request is lost in a silence.
-/

namespace SambaProvider

open Lib Lib.Percent

namespace NanoHTTPD

variable {ρ : Type}

/-- **A connection without its pieces**: the bytes still to be read, what the
session keeps, whether it is closed, and what was sent. -/
structure Exchange (ρ : Type) where
  content : List UInt8
  kept : Kept
  closed : Bool
  sent : List ρ

namespace Exchange

/-- The exchange with what has become of a request. -/
def finish (x : Exchange ρ) (content : List UInt8) (answered : Kept × Outcome ρ) : Exchange ρ :=
  match answered with
  | (kept, .reply r) => ⟨content, kept, x.closed, x.sent ++ [r]⟩
  | (kept, .refused r) => ⟨content, kept, true, x.sent ++ [r]⟩
  | (kept, .dropped) => ⟨content, kept, true, x.sent⟩

/-- One request: its head is answered, and what is behind it is left. -/
def step (S : Server ρ) (x : Exchange ρ) : Exchange ρ :=
  if x.content = [] then { x with closed := true }
  else x.finish (behindHead x.content)
    (answer S (SambaConfiguration.readLines false (decodeUtf8 (headOf x.content))) x.kept)

/-- So many requests. -/
def run (S : Server ρ) : ℕ → Exchange ρ → Exchange ρ
  | 0, x => x
  | n + 1, x => run S n (if x.closed then x else x.step S)

variable {S : Server ρ} {x : Exchange ρ} {n : ℕ}

theorem run_of_closed (h : x.closed = true) : x.run S n = x := by
  induction n with
  | zero => rfl
  | succ n ih => rw [run, if_pos h, ih]

theorem run_succ (h : x.closed = false) : x.run S (n + 1) = (x.step S).run S n := by
  rw [run, if_neg (by rw [h]; exact Bool.false_ne_true)]

/-- An exchange that is closed by the step stays as it is. -/
theorem run_of_step_closed (h : x.closed = false) (hclosed : (x.step S).closed = true) :
    x.run S (n + 1) = x.step S := by
  rw [run_succ h, run_of_closed hclosed]

/-- **A head is answered**, and nothing behind it is lost. -/
theorem step_head {head : Head} {rest : List UInt8} (h : x.content = head.bytes ++ rest) :
    x.step S = x.finish rest (answer S (head.first :: head.lines) x.kept) := by
  have hne : x.content ≠ [] := by
    rw [h]
    exact List.append_ne_nil_of_left_ne_nil (List.ne_nil_of_length_pos head.length_bytes_pos) _
  rw [step, if_neg hne, h, head.headOf_append, head.behindHead_append, head.readLines_bytes,
    answer_append]

/-! ## Requests that follow each other -/

/-- What is sent for heads that follow each other: an answer to each, up to
one after which the connection is closed. -/
def replies (S : Server ρ) : Kept → List Head → List ρ
  | _, [] => []
  | kept, head :: heads =>
    match answer S (head.first :: head.lines) kept with
    | (kept, .reply r) => r :: replies S kept heads
    | (_, .refused r) => [r]
    | (_, .dropped) => []

theorem run_replies {heads : List Head} (hopen : x.closed = false)
    (hcontent : x.content = heads.flatMap Head.bytes) (hn : heads.length < n) :
    (x.run S n).closed = true ∧ (x.run S n).sent = x.sent ++ replies S x.kept heads := by
  induction heads generalizing x n with
  | nil =>
    obtain ⟨n, rfl⟩ := Nat.exists_eq_succ_of_ne_zero (Nat.ne_of_gt hn)
    have hstep : x.step S = { x with closed := true } := if_pos hcontent
    rw [run_of_step_closed hopen (by rw [hstep]), hstep]
    exact ⟨rfl, (List.append_nil _).symm⟩
  | cons head heads ih =>
    obtain ⟨n, rfl⟩ := Nat.exists_eq_succ_of_ne_zero (Nat.ne_zero_of_lt hn)
    have hstep := step_head (S := S) hcontent
    rw [replies]
    rcases hanswer : answer S (head.first :: head.lines) x.kept with ⟨kept, r | r | -⟩
    · rw [hanswer, finish, hopen] at hstep
      obtain ⟨hclosed, hsent⟩ := ih (x := ⟨heads.flatMap Head.bytes, kept, false, x.sent ++ [r]⟩)
        rfl rfl (Nat.lt_of_succ_lt_succ hn)
      rw [run_succ hopen, hstep]
      refine ⟨hclosed, hsent.trans ?_⟩
      rw [List.append_assoc]
      rfl
    · rw [hanswer, finish] at hstep
      rw [run_of_step_closed hopen (by rw [hstep]), hstep]
      exact ⟨rfl, rfl⟩
    · rw [hanswer, finish] at hstep
      rw [run_of_step_closed hopen (by rw [hstep]), hstep]
      exact ⟨rfl, (List.append_nil _).symm⟩

/-! ## A head without an end -/

/-- The lines `execute` looks at where no head ends. -/
def unended (content : List UInt8) : List (List Char) :=
  SambaConfiguration.readLines false (decodeUtf8 (content.take bufSize))

/-- Without an end of a head, everything is put back. -/
theorem step_unended (hne : x.content ≠ [])
    (hend : findHeaderEnd (x.content.take bufSize) = 0) :
    x.step S = x.finish x.content (answer S (unended x.content) x.kept) := by
  rw [step, if_neg hne, unended, behindHead, headOf]
  simp only [hend, if_true, List.drop_zero]

theorem run_replicate (hopen : x.closed = false) (hne : x.content ≠ [])
    (hend : findHeaderEnd (x.content.take bufSize) = 0) {kept : Kept} {r : ρ}
    (hreply : answer S (unended x.content) x.kept = (kept, .reply r)) :
    (x.run S n).closed = false ∧ (x.run S n).sent = x.sent ++ List.replicate n r := by
  induction n generalizing x with
  | zero => exact ⟨hopen, (List.append_nil _).symm⟩
  | succ n ih =>
    have hstep := step_unended (S := S) hne hend
    rw [hreply, finish, hopen] at hstep
    obtain ⟨hopen', hsent⟩ := ih (x := ⟨x.content, kept, false, x.sent ++ [r]⟩) rfl hne hend
      (answer_again hreply)
    rw [run_succ hopen, hstep]
    refine ⟨hopen', hsent.trans ?_⟩
    rw [List.append_assoc]
    rfl

end Exchange

namespace Connection

variable {S : Server ρ} {c : Connection ρ} {n : ℕ}

/-- A connection that has just been accepted. -/
def start (wire : List (Arrival UInt8)) : Connection ρ :=
  ⟨⟨[], wire⟩, ⟨fun _ => none, none⟩, false, []⟩

theorem ready_start {wire : List (Arrival UInt8)} (h : Steady wire) :
    Ready (start wire : Connection ρ).inputStream := ⟨h, Nat.zero_le _⟩

theorem steady_piece {bs : List UInt8} : Steady (leave bs []) :=
  Pushback.steady_leave List.not_mem_nil

theorem content_piece {bs : List UInt8} :
    (start (leave bs []) : Connection ρ).inputStream.content = bs := by
  rw [start, Pushback.content, Pushback.arrived_leave]
  exact List.append_nil bs

/-- A server that answers with the path that was asked for. -/
def pathServer : Server (List Char) where
  toLowerCase := List.map Char.toLower
  serve _ uri _ _ := .ok (some uri)
  error _ message := message.toList

/-- A request for a path. -/
def getHead : Head where
  first := "GET /a".toList
  lines := []
  first_oneLine := by simp
  lines_oneLine := fun line h => absurd h List.not_mem_nil
  lines_ne := fun line h => absurd h List.not_mem_nil
  length_le := by decide

/-! ## The pieces make no difference -/

/-- The exchange of a connection. -/
def view (c : Connection ρ) : Exchange ρ := ⟨c.inputStream.content, c.kept, c.closed, c.sent⟩

theorem view_finish {s : Pushback UInt8} {answered : Kept × Outcome ρ} :
    (c.finish s answered).view = c.view.finish s.content answered ∧
      (c.finish s answered).inputStream = s := by
  obtain ⟨kept, r | r | -⟩ := answered <;> exact ⟨rfl, rfl⟩

/-- **A step of the connection is one of the exchange.** -/
theorem view_execute (h : Ready c.inputStream) :
    (c.execute S).view = c.view.step S ∧ Ready (c.execute S).inputStream := by
  rcases execute_cases (S := S) h with ⟨hnil, hexecute⟩ | ⟨hne, s, hready, hcontent, hexecute⟩
  · have hstep : c.view.step S = { c.view with closed := true } := if_pos hnil
    rw [hexecute, hstep, view, view, hnil]
    exact ⟨rfl, List.not_mem_nil, Nat.zero_le _⟩
  · have hstep : c.view.step S = c.view.finish (behindHead c.inputStream.content)
        (answer S (SambaConfiguration.readLines false
          (decodeUtf8 (headOf c.inputStream.content))) c.kept) := if_neg hne
    rw [hexecute, hstep, view_finish.1, view_finish.2, hcontent]
    exact ⟨rfl, hready⟩

/-- **The connection refines the exchange**: however its bytes arrive, what
is sent and what is kept are the same. -/
theorem view_run (h : Ready c.inputStream) : (c.run S n).view = c.view.run S n := by
  induction n generalizing c with
  | zero => rfl
  | succ n ih =>
    obtain ⟨hview, hready⟩ := view_execute (S := S) h
    cases hclosed : c.closed with
    | true =>
      have hclosed' : c.view.closed = true := hclosed
      rw [run, if_pos hclosed, Exchange.run, if_pos hclosed', ih h]
    | false =>
      have hclosed' : c.view.closed = false := hclosed
      rw [run, if_neg (by rw [hclosed]; exact Bool.false_ne_true), Exchange.run_succ hclosed',
        ← hview, ih hready]

/-- **The pieces make no difference**: the same bytes get the same answers,
and leave the same behind, after any number of requests. -/
theorem view_run_start {wire wire' : List (Arrival UInt8)} (h : Steady wire) (h' : Steady wire')
    (heq : arrived wire = arrived wire') (n : ℕ) :
    ((start wire).run S n).view = ((start wire').run S n).view := by
  have hview : (start wire : Connection ρ).view = (start wire').view := by
    rw [view, view, start, start, Pushback.content, Pushback.content, heq]
  rw [view_run ⟨h, Nat.zero_le _⟩, view_run ⟨h', Nat.zero_le _⟩, hview]

/-- A request in one piece, and in two. -/
theorem view_run_start_get :
    ((start (leave getHead.bytes [])).run pathServer 3).view =
      ((start (leave (getHead.bytes.take 5) (leave (getHead.bytes.drop 5) []))).run
        pathServer 3).view := by
  refine view_run_start steady_piece (Pushback.steady_leave steady_piece) ?_ 3
  rw [Pushback.arrived_leave, Pushback.arrived_leave, Pushback.arrived_leave, ← List.append_assoc,
    List.take_append_drop]

theorem run_of_closed (h : c.closed = true) : c.run S n = c := by
  induction n with
  | zero => rfl
  | succ n ih => rw [run, if_pos h, ih]

theorem run_succ (h : c.closed = false) : c.run S (n + 1) = (c.execute S).run S n := by
  rw [run, if_neg (by rw [h]; exact Bool.false_ne_true)]

/-- **The heads of a connection are answered one by one**, and at its end it
is closed. -/
theorem run_heads {heads : List Head} (h : Ready c.inputStream) (hopen : c.closed = false)
    (hcontent : c.inputStream.content = heads.flatMap Head.bytes) (hn : heads.length < n) :
    (c.run S n).closed = true ∧
      (c.run S n).sent = c.sent ++ Exchange.replies S c.kept heads := by
  have hrun := Exchange.run_replies (S := S) (x := c.view) hopen hcontent hn
  rw [← view_run h] at hrun
  exact hrun

/-- Two requests in one piece. -/
theorem run_heads_get :
    ((start (leave ([getHead, getHead].flatMap Head.bytes) [])).run pathServer 3).closed = true ∧
      ((start (leave ([getHead, getHead].flatMap Head.bytes) [])).run pathServer 3).sent =
        ["/a".toList, "/a".toList] := by
  have hreplies : [] ++ Exchange.replies pathServer ⟨fun _ => none, none⟩ [getHead, getHead] =
      ["/a".toList, "/a".toList] := by decide
  have hrun := run_heads (S := pathServer) (n := 3)
    (ready_start (steady_piece : Steady (leave ([getHead, getHead].flatMap Head.bytes) []))) rfl
    content_piece (by decide)
  exact ⟨hrun.1, hrun.2.trans hreplies⟩

/-- **A head that is cut off or too long is answered again and again**: the
loop goes on, with one more of the same answer each time. -/
theorem run_unended (h : Ready c.inputStream) (hopen : c.closed = false)
    (hne : c.inputStream.content ≠ [])
    (hend : findHeaderEnd (c.inputStream.content.take bufSize) = 0) {kept : Kept} {r : ρ}
    (hreply : answer S (Exchange.unended c.inputStream.content) c.kept = (kept, .reply r)) (n : ℕ) :
    (c.run S n).closed = false ∧ (c.run S n).sent = c.sent ++ List.replicate n r := by
  have hrun := Exchange.run_replicate (x := c.view) (n := n) hopen hne hend hreply
  rw [← view_run h] at hrun
  exact hrun

/-- What is looked at of a request that is cut off. -/
theorem unended_first : Exchange.unended (encodeUtf8 getHead.first) = [getHead.first] := by
  have htake : (encodeUtf8 getHead.first).take bufSize = encodeUtf8 getHead.first := by decide
  rw [Exchange.unended, htake, decodeUtf8_encodeUtf8]
  decide

/-- A request that is cut off: five times the same answer. -/
theorem run_unended_get :
    ((start (leave (encodeUtf8 getHead.first) [])).run pathServer 5).closed = false ∧
      ((start (leave (encodeUtf8 getHead.first) [])).run pathServer 5).sent =
        [] ++ List.replicate 5 "/a".toList := by
  have hreply : answer pathServer (Exchange.unended
      (start (leave (encodeUtf8 getHead.first) []) : Connection (List Char)).inputStream.content)
      ⟨fun _ => none, none⟩ = (⟨fun _ => none, none⟩, .reply "/a".toList) := by
    rw [content_piece, unended_first]
    rfl
  exact run_unended (ready_start steady_piece) rfl (by rw [content_piece]; decide)
    (by rw [content_piece]; decide) hreply 5

/-! ## Requests that arrive together -/

variable {head : Head} {extra : List UInt8} {wire more : List (Arrival UInt8)}

end Connection

end NanoHTTPD

end SambaProvider
