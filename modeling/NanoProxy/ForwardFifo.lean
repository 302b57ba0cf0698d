import NanoProxy.ForwardRelay
import NanoProxy.Lib.Runs

/-!
# The two directions of a forwarded connection (include/request.h)

What a forwarded connection has taken from its client and its target, what it has passed on
and what it keeps for them. `up_buf` is for the target; `down_buf`, which is for the client,
is freed by `forward_cleanup` and filled by nobody.
-/

namespace ForwardFifo

open CLib ProxyExchange ForwardRelay Runs

/-- A forwarded connection, with the record of what went over it. `closed` says that
`forward_cleanup` has freed its state. -/
structure Relay where
  fs : ForwardState
  downBuf : Option Bytes
  downSent : Nat
  closed : Bool
  fromClient : Bytes
  toTarget : Bytes
  fromTarget : Bytes
  toClient : Bytes

/-- `up_buf[up_sent..up_len)` -/
def waiting (fs : ForwardState) : Bytes := (fs.upBuf.getD []).drop fs.upSent

/-- `down_buf[down_sent..down_len)` -/
def Relay.retained (x : Relay) : Bytes := (x.downBuf.getD []).drop x.downSent

def start (proto : ForwardProto) (upstreamFd : Nat) : Relay where
  fs := forwardStart proto upstreamFd
  downBuf := none
  downSent := 0
  closed := false
  fromClient := []
  toTarget := []
  fromTarget := []
  toClient := []

/-- How many bytes the `send` of `forward_on_downstream_data` takes. -/
def sentDirectly (data : Bytes) (r : WriteResult) (fs : ForwardState) : Nat :=
  if fs.upstreamProto = .udp then data.length
  else if fs.connected then (r.taken data.length).getD 0
  else 0

def onDownstreamData (data : Bytes) (r : WriteResult) (x : Relay) : Relay :=
  let x := { x with fromClient := x.fromClient ++ data }
  match forwardOnDownstreamData data r x.fs with
  | none => { x with closed := true }
  | some fs => { x with
      fs := fs
      toTarget := x.toTarget ++ data.take (sentDirectly data r x.fs) }

/-- How many bytes the flush of `up_buf` takes. -/
def flushed (r : WriteResult) (fs : ForwardState) : Nat :=
  (r.taken (waiting fs).length).getD 0

def onUpstreamWrite (soerr : Bool) (r : WriteResult) (x : Relay) : Relay :=
  match forwardOnUpstreamWrite soerr r x.fs with
  | none => { x with closed := true }
  | some fs => { x with
      fs := fs
      toTarget := x.toTarget ++ (waiting x.fs).take (flushed r x.fs) }

/-- The read part of `forward_on_upstream_event`. Nobody looks at what `socket_write` has
taken, and `recv` with EAGAIN closes like any other error. -/
def onUpstreamRead (read : ReadResult) (known : Bool) (w : WriteResult) (x : Relay) : Relay :=
  match read with
  | .data buf => { x with
      fromTarget := x.fromTarget ++ buf
      toClient := x.toClient ++ buf.take ((socketWrite known buf.length w).getD 0) }
  | .again => { x with closed := true }
  | .eof => { x with closed := true }
  | .failed => { x with closed := true }

/-- What the system calls of `forward_on_upstream_event` return. -/
structure Io where
  soerr : Bool
  flush : WriteResult
  read : ReadResult
  known : Bool
  write : WriteResult

def writePart (events : Interest) (io : Io) (x : Relay) : Relay :=
  if events.write then onUpstreamWrite io.soerr io.flush x else x

def forwardOnUpstreamEvent (events : Interest) (io : Io) (x : Relay) : Relay :=
  let x := writePart events io x
  if x.closed then x
  else if events.read then onUpstreamRead io.read io.known io.write x else x

inductive Event where
  | downstreamData (data : Bytes) (r : WriteResult)
  | upstream (events : Interest) (io : Io)

def step (x : Relay) (e : Event) : Relay :=
  if x.closed then x else match e with
  | .downstreamData data r => onDownstreamData data r x
  | .upstream events io => forwardOnUpstreamEvent events io x

variable {x : Relay}

/-- The send of `data` does not fail. -/
def Sendable (data : Bytes) (r : WriteResult) (fs : ForwardState) : Prop :=
  fs.connected = false ∨ r.taken data.length ≠ none

/-- No data overtakes what waits: it is sent directly only when nothing does, or when the
target takes none of it. -/
def InTurn (x : Relay) : Event → Prop
  | .downstreamData data r => Sendable data r x.fs ∧
      (x.fs.connected = true → waiting x.fs = [] ∨ r.taken data.length = some 0)
  | .upstream _ _ => True

/-- Neither side fails. -/
def Healthy (x : Relay) : Event → Prop
  | .downstreamData data r => Sendable data r x.fs
  | .upstream events io => io.soerr = false ∧ io.known = true ∧ io.write ≠ .pipe ∧
      io.write ≠ .failed ∧
      (events.read = true → io.read ≠ .again ∧ io.read ≠ .eof ∧ io.read ≠ .failed)

instance decidableInTurn (x : Relay) : ∀ e, Decidable (InTurn x e)
  | .downstreamData data r => inferInstanceAs (Decidable
      ((x.fs.connected = false ∨ r.taken data.length ≠ none) ∧
        (x.fs.connected = true → waiting x.fs = [] ∨ r.taken data.length = some 0)))
  | .upstream _ _ => .isTrue trivial

instance decidableHealthy (x : Relay) : ∀ e, Decidable (Healthy x e)
  | .downstreamData data r => inferInstanceAs (Decidable
      (x.fs.connected = false ∨ r.taken data.length ≠ none))
  | .upstream events io => inferInstanceAs (Decidable (io.soerr = false ∧ io.known = true ∧
      io.write ≠ .pipe ∧ io.write ≠ .failed ∧
      (events.read = true → io.read ≠ .again ∧ io.read ≠ .eof ∧ io.read ≠ .failed)))

/-- What the target has got and what waits for it is what the client has sent. -/
structure Ordered (x : Relay) : Prop where
  stream : x.fs.upstreamProto ≠ .udp
  bounded : x.fs.upSent ≤ (x.fs.upBuf.getD []).length
  order : x.toTarget ++ waiting x.fs = x.fromClient

/-- What a function of the relay leaves of a state, after it has sent `sent` and was given
`offered`. -/
structure Queued (fs fs' : ForwardState) (sent offered : Bytes) : Prop where
  stream : fs'.upstreamProto = fs.upstreamProto
  bounded : fs'.upSent ≤ (fs'.upBuf.getD []).length
  order : sent ++ waiting fs' = waiting fs ++ offered

variable {fs fs' : ForwardState} {r : WriteResult}

theorem queued_append (bounded : fs.upSent ≤ (fs.upBuf.getD []).length) (data : Bytes) :
    Queued fs { fs with upBuf := some (fs.upBuf.getD [] ++ data) } [] data where
  stream := rfl
  bounded := by
    change fs.upSent ≤ (fs.upBuf.getD [] ++ data).length
    rw [List.length_append]
    omega
  order := List.drop_append_of_le_length bounded

/-- `forward_on_downstream_data` on a stream. -/
theorem queued_downstreamData {data : Bytes} (stream : fs.upstreamProto ≠ .udp)
    (bounded : fs.upSent ≤ (fs.upBuf.getD []).length)
    (turn : fs.connected = true → waiting fs = [] ∨ r.taken data.length = some 0)
    (sent : forwardOnDownstreamData data r fs = some fs') :
    Queued fs fs' (data.take (sentDirectly data r fs)) data := by
  unfold sentDirectly
  unfold forwardOnDownstreamData at sent
  rw [if_neg stream] at sent ⊢
  cases connected : fs.connected with
  | false =>
    rw [connected, Bool.not_false, if_pos rfl] at sent
    cases sent
    rw [if_neg Bool.false_ne_true, List.take_zero]
    rw [← connected]
    exact queued_append bounded data
  | true =>
    rw [connected, Bool.not_true, if_neg Bool.false_ne_true] at sent
    rw [if_pos rfl]
    cases taken : r.taken data.length with
    | none =>
      rw [taken] at sent
      cases sent
    | some n =>
      rw [taken] at sent
      dsimp only at sent
      rw [Option.getD_some]
      -- what goes directly does not overtake anything
      have direct : data.take n ++ (waiting fs ++ data.drop n) = waiting fs ++ data := by
        rcases turn connected with nothing | none
        · rw [nothing, List.nil_append, List.nil_append, List.take_append_drop]
        · rw [taken, Option.some.injEq] at none
          rw [none, List.take_zero, List.nil_append, List.drop_zero]
      split at sent
      · cases sent
        obtain ⟨same, within, order⟩ := queued_append bounded (data.drop n)
        rw [connected] at same within order
        refine ⟨same, within, ?_⟩
        rw [List.nil_append] at order
        rw [order, direct]
      · rename_i whole
        cases sent
        rw [List.drop_eq_nil_of_le (Nat.not_lt.mp whole), List.append_nil] at direct
        exact ⟨rfl, bounded, direct⟩

theorem flushed_le (r : WriteResult) (fs : ForwardState) : flushed r fs ≤ (waiting fs).length := by
  unfold flushed
  cases taken : r.taken (waiting fs).length with
  | none => exact Nat.zero_le _
  | some n => exact WriteResult.taken_le taken

/-- The flush of `up_buf`. -/
theorem queued_upstreamWrite {soerr : Bool} (bounded : fs.upSent ≤ (fs.upBuf.getD []).length)
    (sent : forwardOnUpstreamWrite soerr r fs = some fs') :
    Queued fs fs' ((waiting fs).take (flushed r fs)) [] := by
  unfold forwardOnUpstreamWrite at sent
  split at sent
  · cases sent
  dsimp only at sent
  split at sent
  · rename_i nothing
    cases sent
    refine ⟨rfl, bounded, ?_⟩
    change (waiting fs).take _ ++ waiting fs = _
    rw [show waiting fs = [] from nothing, List.take_nil]
  split at sent
  · rename_i all
    cases sent
    have whole : flushed r fs = (waiting fs).length := all
    refine ⟨rfl, Nat.zero_le _, ?_⟩
    rw [whole, List.take_length]
    rfl
  · cases sent
    have le := flushed_le r fs
    have length : (waiting fs).length = (fs.upBuf.getD []).length - fs.upSent :=
      List.length_drop
    refine ⟨rfl, ?_, ?_⟩
    · change fs.upSent + flushed r fs ≤ (fs.upBuf.getD []).length
      omega
    · change (waiting fs).take _ ++ (fs.upBuf.getD []).drop (fs.upSent + flushed r fs) = _
      rw [← List.drop_drop, List.append_nil]
      exact List.take_append_drop _ _

theorem Ordered.queued (h : Ordered x) {sent offered : Bytes}
    (queued : Queued x.fs fs' sent offered) :
    Ordered { x with
      fs := fs', fromClient := x.fromClient ++ offered, toTarget := x.toTarget ++ sent } where
  stream := fun datagram => h.stream (queued.stream.symm.trans datagram)
  bounded := queued.bounded
  order := by
    change (x.toTarget ++ sent) ++ waiting fs' = x.fromClient ++ offered
    rw [List.append_assoc, queued.order, ← List.append_assoc, h.order]

theorem ordered_downstreamData (h : Ordered x) {data : Bytes}
    (turn : InTurn x (.downstreamData data r)) : Ordered (onDownstreamData data r x) := by
  obtain ⟨sendable, turn⟩ := turn
  unfold onDownstreamData
  dsimp only
  cases sent : forwardOnDownstreamData data r x.fs with
  | some fs' => exact h.queued (queued_downstreamData h.stream h.bounded turn sent)
  | none =>
    -- the send has failed
    unfold forwardOnDownstreamData at sent
    rw [if_neg h.stream] at sent
    rcases sendable with unconnected | taken
    · rw [unconnected, Bool.not_false, if_pos rfl] at sent
      cases sent
    · split at sent
      · cases sent
      split at sent
      · exact absurd ‹_› taken
      split at sent
      · cases sent
      · cases sent

theorem ordered_upstreamWrite (h : Ordered x) (soerr : Bool) :
    Ordered (onUpstreamWrite soerr r x) := by
  unfold onUpstreamWrite
  cases sent : forwardOnUpstreamWrite soerr r x.fs with
  | some fs' =>
    have queued := h.queued (queued_upstreamWrite h.bounded sent)
    rw [List.append_nil] at queued
    exact queued
  | none => exact ⟨h.stream, h.bounded, h.order⟩

theorem ordered_upstreamRead (h : Ordered x) (read : ReadResult) (known : Bool) :
    Ordered (onUpstreamRead read known r x) := by
  cases read with
  | data buf => exact ⟨h.stream, h.bounded, h.order⟩
  | again => exact ⟨h.stream, h.bounded, h.order⟩
  | eof => exact ⟨h.stream, h.bounded, h.order⟩
  | failed => exact ⟨h.stream, h.bounded, h.order⟩

theorem ordered_step (x : Relay) (e : Event) (h : Ordered x) (turn : InTurn x e) :
    Ordered (step x e) := by
  unfold step
  split
  · exact h
  cases e with
  | downstreamData data r => exact ordered_downstreamData h turn
  | upstream events io =>
    have written : Ordered (writePart events io x) := by
      unfold writePart
      split
      · exact ordered_upstreamWrite h io.soerr
      · exact h
    unfold forwardOnUpstreamEvent
    dsimp only
    split
    · exact written
    split
    · exact ordered_upstreamRead written io.read io.known
    · exact written

theorem ordered_start {proto : ForwardProto} (stream : proto ≠ .udp) (upstreamFd : Nat) :
    Ordered (start proto upstreamFd) :=
  ⟨stream, Nat.zero_le _, rfl⟩

/-- The target gets what the client has sent, in order, if nothing is sent past `up_buf`. -/
theorem client_order_kept (proto : ForwardProto) (stream : proto ≠ .udp) (upstreamFd : Nat)
    (es : List Event) (turn : Guarded step InTurn (start proto upstreamFd) es) :
    let x := run step (start proto upstreamFd) es
    x.toTarget ++ waiting x.fs = x.fromClient :=
  (run_invariant ordered_step (ordered_start stream upstreamFd) turn).order

/-- What an event reads from the target. -/
def received (x : Relay) : Event → Option Bytes
  | .downstreamData _ _ => none
  | .upstream events io =>
    if x.closed || (writePart events io x).closed || !events.read then none
    else match io.read with
      | .data buf => some buf
      | _ => none

/-- How many of `len` bytes for the client `socket_write` has taken. -/
def takenBy (len : Nat) : Event → Nat
  | .downstreamData _ _ => 0
  | .upstream _ io => (socketWrite io.known len io.write).getD 0

/-- The client takes, at once, all that is read for it. -/
def Complete (x : Relay) (e : Event) : Prop :=
  ∀ buf ∈ received x e, takenBy buf.length e = buf.length

instance decidableComplete (x : Relay) (e : Event) : Decidable (Complete x e) :=
  inferInstanceAs (Decidable (∀ buf ∈ received x e, takenBy buf.length e = buf.length))

/-- The way to the client. -/
structure SameDown (x y : Relay) : Prop where
  fromTarget : y.fromTarget = x.fromTarget
  toClient : y.toClient = x.toClient
  downBuf : y.downBuf = x.downBuf

theorem same_downstreamData (data : Bytes) (r : WriteResult) (x : Relay) :
    SameDown x (onDownstreamData data r x) := by
  unfold onDownstreamData
  dsimp only
  split
  · exact ⟨rfl, rfl, rfl⟩
  · exact ⟨rfl, rfl, rfl⟩

theorem same_writePart (events : Interest) (io : Io) (x : Relay) :
    SameDown x (writePart events io x) := by
  unfold writePart onUpstreamWrite
  split
  · split
    · exact ⟨rfl, rfl, rfl⟩
    · exact ⟨rfl, rfl, rfl⟩
  · exact ⟨rfl, rfl, rfl⟩

/-- Nothing is kept for the client: what it does not take of a read is gone. -/
theorem step_down (x : Relay) (e : Event) :
    let buf := (received x e).getD []
    (step x e).fromTarget = x.fromTarget ++ buf ∧
      (step x e).toClient = x.toClient ++ buf.take (takenBy buf.length e) ∧
      (step x e).downBuf = x.downBuf := by
  have unread {y : Relay} (same : SameDown x y) (nothing : received x e = none) :
      let buf := (received x e).getD []
      y.fromTarget = x.fromTarget ++ buf ∧
        y.toClient = x.toClient ++ buf.take (takenBy buf.length e) ∧ y.downBuf = x.downBuf := by
    rw [nothing]
    dsimp only
    rw [Option.getD_none, List.take_nil, List.append_nil, List.append_nil]
    exact ⟨same.fromTarget, same.toClient, same.downBuf⟩
  unfold step
  by_cases closed : x.closed = true
  · rw [if_pos closed]
    refine unread ⟨rfl, rfl, rfl⟩ ?_
    cases e with
    | downstreamData data r => rfl
    | upstream events io => simp [received, closed]
  rw [if_neg closed]
  cases e with
  | downstreamData data r => exact unread (same_downstreamData data r x) rfl
  | upstream events io =>
    have same := same_writePart events io x
    unfold forwardOnUpstreamEvent
    dsimp only
    by_cases refused : (writePart events io x).closed = true
    · rw [if_pos refused]
      exact unread same (by simp [received, refused])
    rw [if_neg refused]
    by_cases readable : events.read = true
    · rw [if_pos readable]
      unfold onUpstreamRead
      cases read : io.read with
      | data buf =>
        have got : received x (.upstream events io) = some buf := by
          simp [received, closed, refused, readable, read]
        rw [got]
        dsimp only
        rw [Option.getD_some, same.fromTarget, same.toClient]
        exact ⟨rfl, rfl, same.downBuf⟩
      | again => exact unread ⟨same.fromTarget, same.toClient, same.downBuf⟩ (by simp [received, read])
      | eof => exact unread ⟨same.fromTarget, same.toClient, same.downBuf⟩ (by simp [received, read])
      | failed => exact unread ⟨same.fromTarget, same.toClient, same.downBuf⟩ (by simp [received, read])
    · rw [if_neg readable]
      exact unread same (by simp [received, readable])

theorem takenBy_le (len : Nat) (e : Event) : takenBy len e ≤ len := by
  cases e with
  | downstreamData data r => exact Nat.zero_le _
  | upstream events io =>
    change (socketWrite io.known len io.write).getD 0 ≤ len
    cases taken : socketWrite io.known len io.write with
    | none => exact Nat.zero_le _
    | some n => exact socketWrite_le taken

/-- The client misses some bytes. -/
def Lost (x : Relay) : Prop := x.toClient.length < x.fromTarget.length

theorem lost_step (x : Relay) (e : Event) (lost : Lost x) : Lost (step x e) := by
  obtain ⟨read, written, _⟩ := step_down x e
  unfold Lost at lost ⊢
  rw [read, written, List.length_append, List.length_append, List.length_take]
  omega

theorem whole_run_iff (es : List Event) (whole : x.toClient = x.fromTarget) :
    (run step x es).toClient = (run step x es).fromTarget ↔ Guarded step Complete x es := by
  induction es generalizing x with
  | nil => exact ⟨fun _ => trivial, fun _ => whole⟩
  | cons e es ih =>
    obtain ⟨read, written, _⟩ := step_down x e
    by_cases complete : Complete x e
    · have kept : (step x e).toClient = (step x e).fromTarget := by
        rw [read, written, whole]
        cases got : received x e with
        | none => rw [Option.getD_none, List.take_nil]
        | some buf => rw [Option.getD_some, complete buf got, List.take_length]
      refine (ih kept).trans ⟨fun rest => ⟨complete, rest⟩, fun guarded => guarded.2⟩
    · refine ⟨fun same => ?_, fun guarded => absurd guarded.1 complete⟩
      have short : Lost (step x e) := by
        by_contra enough
        refine complete fun buf got => ?_
        have le := takenBy_le buf.length e
        rw [Lost, read, written, whole, Option.mem_def.mp got, Option.getD_some,
          List.length_append, List.length_append, List.length_take] at enough
        omega
      have lost : Lost (run step (step x e) es) := run_always lost_step short es
      rw [Lost, show run step (step x e) es = run step x (e :: es) from rfl, same] at lost
      exact absurd lost (lt_irrefl _)

theorem run_retained (es : List Event) (unused : x.downBuf = none) :
    (run step x es).retained = [] := by
  have kept (y : Relay) (e : Event) (empty : y.downBuf = none) : (step y e).downBuf = none :=
    (step_down y e).2.2.trans empty
  have still : (run step x es).downBuf = none :=
    @run_always _ _ step (fun y => y.downBuf = none) kept x unused es
  rw [Relay.retained, still]
  exact List.drop_nil

/-- No byte of the target is lost exactly if the client takes every read at once. -/
theorem target_bytes_kept_iff (proto : ForwardProto) (upstreamFd : Nat) (es : List Event) :
    let x := run step (start proto upstreamFd) es
    x.toClient ++ x.retained = x.fromTarget ↔
      Guarded step Complete (start proto upstreamFd) es := by
  dsimp only
  rw [run_retained es rfl, List.append_nil]
  exact whole_run_iff es rfl

def idle : Io := ⟨false, .wrote 65536, .again, true, .wrote 65536⟩

/-- The target takes the first of two bytes that have waited for the connection; the third
byte comes then. -/
def overtaken (third : WriteResult) : List Event :=
  [.downstreamData (ascii "ab") .again, .upstream ⟨false, true⟩ { idle with flush := .wrote 1 },
    .downstreamData (ascii "c") third]

theorem client_order_kept_sample :
    (run step (start .tcp 9) (overtaken .again)).toTarget = ascii "a" ∧
      let x := run step (start .tcp 9) (overtaken .again)
      x.toTarget ++ waiting x.fs = x.fromClient :=
  ⟨by decide +kernel,
    client_order_kept .tcp (by decide) 9 (overtaken .again) (by decide +kernel)⟩

theorem client_order_broken :
    ¬ ∀ es : List Event, Guarded step Healthy (start .tcp 9) es →
      let x := run step (start .tcp 9) es
      x.toTarget ++ waiting x.fs = x.fromClient := by
  intro ordered
  have kept := ordered (overtaken (.wrote 1)) (by decide +kernel)
  exact absurd kept (by decide +kernel)

/-- The client takes one of the two bytes of a read. -/
theorem target_bytes_lost :
    ¬ ∀ es : List Event, Guarded step Healthy (start .tcp 9) es →
      let x := run step (start .tcp 9) es
      x.toClient ++ x.retained = x.fromTarget := by
  intro kept
  have lost := kept [.upstream ⟨true, true⟩
    { idle with read := .data (ascii "ab"), write := .wrote 1 }] (by decide +kernel)
  exact absurd lost (by decide +kernel)

end ForwardFifo
