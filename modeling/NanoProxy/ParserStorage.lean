import NanoProxy.CallTrace
import NanoProxy.Lib.Runs

/-!
# The storage of the parsers

`http_parser_reset` and `http_parser_destroy` free what the requests of a parser hold;
neither clears the pointers, so the storage of a parser must be released once between two
calls of `http_parser_init`. `http_dispatcher` breaks this when the handler of a keep-alive
request has deleted the connection because its send failed.
-/

namespace ParserStorage

open CLib HttpRequestParser EventLoop CallTrace Runs
open Function

variable {w w' : World} {s : Nat → Bool}

/-- The slots whose parser has released its storage since the last `http_parser_init`, after
one more call. `conn_add` zeroes the parser. -/
def released (s : Nat → Bool) : Call → Nat → Bool
  | .connAdd i => update s i false
  | .parserInit i => update s i false
  | .parserReset i => update s i false
  | .connDel i cd => if cd.isHttp then update s i true else s
  | _ => s

/-- The call releases storage that has been released already. -/
def ReleasesAgain (s : Nat → Bool) : Call → Prop
  | .parserReset i => s i = true
  | .connDel i cd => cd.isHttp = true ∧ s i = true
  | _ => False

/-- No call releases storage again. -/
def ReleasedOnce : (Nat → Bool) → List Call → Prop
  | _, [] => True
  | s, call :: calls => ¬ ReleasesAgain s call ∧ ReleasedOnce (released s call) calls

theorem releasedOnce_append {cs ds : List Call} : ReleasedOnce s (cs ++ ds) ↔
    ReleasedOnce s cs ∧ ReleasedOnce (cs.foldl released s) ds := by
  induction cs generalizing s with
  | nil => exact ⟨fun h => ⟨trivial, h⟩, And.right⟩
  | cons call calls ih =>
    rw [List.cons_append, ReleasedOnce, ReleasedOnce, ih, and_assoc, List.foldl_cons]

/-- The calls of a run. -/
def runCalls : World → List EventLoop.Event → List Call
  | _, [] => []
  | w, e :: es => stepCalls w e ++ runCalls (EventLoop.step w e) es

structure Stored (w : World) (s : Nat → Bool) : Prop where
  indexed : Indexed w
  held : ∀ i, (w.clients i).fd ≠ 0 → s i = false

theorem Stored.init : Stored World.init fun _ => false where
  indexed := Indexed.init
  held := fun _ _ => rfl

theorem held_slot (held : ∀ i, (w.clients i).fd ≠ 0 → s i = false) {i : Nat} {cd : ClientData}
    {s' : Nat → Bool} (here : cd.fd ≠ 0 → s' i = false) (other : ∀ j, j ≠ i → s' j = s j) :
    ∀ j, ((setClient i cd w).clients j).fd ≠ 0 → s' j = false := by
  intro j
  by_cases same : j = i
  · subst same
    have slot : (setClient j cd w).clients j = cd := update_self ..
    rw [slot]
    exact here
  · have slot : (setClient i cd w).clients j = w.clients j := update_of_ne same ..
    rw [slot, other j same]
    exact held j

theorem Stored.piece (h : Stored w s) {cs : List Call} (piece : Piece False w cs w') :
    ReleasedOnce s cs ∧ Stored w' (cs.foldl released s) := by
  have indexed := h.indexed.piece piece
  cases piece with
  | other w' clients index keys =>
    refine ⟨trivial, indexed, ?_⟩
    rw [clients]
    exact h.held
  | slot i cd fd kept =>
    refine ⟨trivial, indexed, held_slot h.held (fun live => ?_) fun _ _ => rfl⟩
    exact h.held i (fd ▸ live)
  | add fd i nonzero free =>
    refine ⟨⟨id, trivial⟩, indexed, ?_⟩
    apply held_slot (w := { accept fd w with fdToIndex := update w.fdToIndex fd (some i) }) h.held
    · exact fun _ => update_self ..
    · exact fun j other => update_of_ne other ..
  | init i cd live fd =>
    refine ⟨⟨id, trivial⟩, indexed, held_slot h.held ?_ ?_⟩
    · exact fun _ => update_self ..
    · exact fun j other => update_of_ne other ..
  | reset i kept =>
    have live := kept.resolve_right id
    refine ⟨⟨fun again => ?_, trivial⟩, indexed, held_slot h.held ?_ ?_⟩
    · rw [ReleasesAgain, h.held i live] at again
      cases again
    · exact fun _ => update_self ..
    · exact fun j other => update_of_ne other ..
  | delete c i nonzero index =>
    obtain ⟨_, fd⟩ := h.indexed c i index
    have held := h.held i (fd ▸ nonzero)
    refine ⟨⟨fun again => ?_, trivial⟩, indexed, ?_⟩
    · rw [ReleasesAgain, held] at again
      cases again.2
    unfold connDel
    rw [if_neg (Nat.not_lt.mpr (Nat.one_le_iff_ne_zero.mpr nonzero)), index]
    apply held_slot h.held
    · exact fun live => absurd rfl live
    · intro j other
      rw [List.foldl_cons, List.foldl_nil, released]
      split
      · exact update_of_ne other ..
      · rfl
  | store c x w' clients index states =>
    refine ⟨⟨id, trivial⟩, indexed, ?_⟩
    rw [clients]
    exact h.held
  | unreachable c => exact ⟨⟨id, trivial⟩, indexed, h.held⟩
  | cleanup c w' clients index states =>
    refine ⟨⟨id, trivial⟩, indexed, ?_⟩
    rw [clients]
    exact h.held

theorem Stored.does (h : Stored w s) {cs : List Call} (does : Does False w cs w') :
    ReleasedOnce s cs ∧ Stored w' (cs.foldl released s) := by
  induction does generalizing s with
  | refl => exact ⟨trivial, h⟩
  | head piece _ ih =>
    obtain ⟨first, stored⟩ := h.piece piece
    obtain ⟨rest, stored'⟩ := ih stored
    rw [List.foldl_append]
    exact ⟨releasedOnce_append.mpr ⟨first, rest⟩, stored'⟩

/-- A step that deletes no connection behind the back of `http_dispatcher`. -/
theorem Stored.step (h : Stored w s) {e : EventLoop.Event} (sound : ¬ ResetsDeleted w e) :
    ReleasedOnce s (stepCalls w e) ∧
      Stored (EventLoop.step w e) ((stepCalls w e).foldl released s) :=
  h.does (step_does h.indexed sound)

theorem httpDispatcher_again (i : Nat) (io : DispatchIo) (indexed : Indexed w)
    (index : w.fdToIndex (w.clients i).fd = some i) (broke : SendBroke (w.clients i) io) :
    httpDispatcherCalls i io w = [.connDel i (w.clients i), .parserReset i] := by
  obtain ⟨content, broken, keepAlive, unowned⟩ := broke
  obtain ⟨nonzero, _⟩ := indexed _ i index
  have there : ¬(w.clients i).fd < 1 := Nat.not_lt.mpr (Nat.one_le_iff_ne_zero.mpr nonzero)
  have handled : bestHandler i io (noteDispatch i w) =
      connDel (w.clients i).fd (noteDispatch i w) := by
    rw [bestHandler, content, broken]
    rfl
  have handledCalls : bestHandlerCalls i io (noteDispatch i w) = [.connDel i (w.clients i)] := by
    rw [bestHandlerCalls, content, broken]
    change connDelCalls (w.clients i).fd (noteDispatch i w) = _
    rw [connDelCalls, if_neg there]
    have found : (noteDispatch i w).fdToIndex (w.clients i).fd = some i := index
    rw [found]
    rfl
  have flags := connDel_flags (w.clients i).fd i (noteDispatch i w)
  have unowned' : ((connDel (w.clients i).fd (noteDispatch i w)).clients i).proxyActive = false :=
    flags.proxyActive.trans unowned
  rw [httpDispatcherCalls, handled, handledCalls, keepAlive, persistOrCloseCalls]
  simp [unowned']

theorem not_releasedOnce (i : Nat) {cd : ClientData} (http : cd.isHttp = true)
    (rest : List Call) : ¬ ReleasedOnce s (.connDel i cd :: .parserReset i :: rest) := by
  rintro ⟨_, once, _⟩
  rw [released, if_pos http] at once
  exact once (update_self ..)

theorem step_again (indexed : Indexed w) {e : EventLoop.Event} (again : ResetsDeleted w e) :
    ¬ ReleasedOnce s (stepCalls w e) := by
  cases e with
  | clientReadable c r io =>
    cases r with
    | data buf =>
      obtain ⟨i, index, some_data, forwarding, http, streaming, positive, broke⟩ := again
      obtain ⟨b, rest, rfl⟩ := List.exists_cons_of_ne_nil some_data
      obtain ⟨_, fd⟩ := indexed c i index
      have calls : stepCalls w (.clientReadable c (.data (b :: rest)) io) =
          onHttpDataCalls c i (b :: rest) io w := by
        rw [stepCalls, myOnReadCalls, index]
        simp [onDataCalls, forwarding, http, streaming]
      rw [calls]
      unfold onHttpDataCalls
      generalize httpParserFeed .default (w.clients i).parser (b :: rest) = feed at *
      obtain ⟨parser, res⟩ := feed
      dsimp only at *
      have slot : (storeParser i parser (b :: rest).length w).clients i = { w.clients i with
          parser := parser
          bytesRead := (w.clients i).bytesRead + (b :: rest).length
          lastActivity := w.now } := update_self ..
      have stored : Indexed (storeParser i parser (b :: rest).length w) := indexed.slot rfl
      have dispatched := httpDispatcher_again i io stored
        (by rw [slot, fd]; exact index)
        (by rw [slot]; exact ⟨broke.content, broke.broken, broke.keepAlive, broke.unowned⟩)
      rw [if_neg (by omega), if_neg (by omega), dispatched]
      have http' : ((storeParser i parser (b :: rest).length w).clients i).isHttp = true := by
        rw [slot]
        exact http
      split
      · exact not_releasedOnce i http' _
      · exact not_releasedOnce i http' []
    | again => exact False.elim again
    | eof => exact False.elim again
    | failed => exact False.elim again
  | accept io => exact False.elim again
  | clientWritable c cw r => exact False.elim again
  | upstreamWritable u soerr r => exact False.elim again
  | upstreamReadable u r cw => exact False.elim again
  | timer now exchanges slots => exact False.elim again
  | arrive u data => exact False.elim again

theorem runCalls_once_iff (h : Stored w s) (es : List EventLoop.Event) :
    ReleasedOnce s (runCalls w es) ↔
      Guarded EventLoop.step (fun w e => ¬ ResetsDeleted w e) w es := by
  induction es generalizing w s with
  | nil => exact ⟨fun _ => trivial, fun _ => trivial⟩
  | cons e es ih =>
    rw [runCalls, releasedOnce_append, Guarded]
    constructor
    · rintro ⟨first, rest⟩
      have sound : ¬ ResetsDeleted w e := fun again => step_again h.indexed again first
      exact ⟨sound, (ih (h.step sound).2).mp rest⟩
    · rintro ⟨sound, rest⟩
      obtain ⟨first, stored⟩ := h.step sound
      exact ⟨first, (ih stored).mpr rest⟩

/-- In a run the storage of every parser is released once if and only if no read makes
`http_dispatcher` come back from a failed send with a keep-alive decision. -/
theorem storage_released_once_iff (es : List EventLoop.Event) :
    ReleasedOnce (fun _ => false) (runCalls World.init es) ↔
      Guarded EventLoop.step (fun w e => ¬ ResetsDeleted w e) World.init es :=
  runCalls_once_iff Stored.init es

/-- A client asks for a file with a keep-alive request, and the send of the body fails. -/
def resetPeer : List EventLoop.Event :=
  [.accept (httpClient 5),
    .clientReadable 5 (.data (ascii "GET /file HTTP/1.1\r\n\r\n"))
      ⟨none, .broken, false, none, .again⟩]

theorem storage_released_again :
    ¬ ∀ es, ReleasedOnce (fun _ => false) (runCalls World.init es) := by
  intro once
  have guarded := (runCalls_once_iff Stored.init resetPeer).mp (once resetPeer)
  refine guarded.2.1 ⟨0, by decide +kernel, by decide, by decide +kernel, by decide +kernel,
    by decide +kernel, by decide +kernel, rfl, rfl, by decide +kernel, by decide +kernel⟩

end ParserStorage
