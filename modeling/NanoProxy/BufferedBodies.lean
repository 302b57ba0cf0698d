import NanoProxy.AdvertisedPersistence
import NanoProxy.DispatchOnce

/-!
# Bodies are buffered

`http_parser_feed` returns 2, in front of a body, to a parser whose `streaming_body` a handler
has set. The handlers set it for a request they were called with, and from there to the reset
behind the request the parser is complete or has failed: no run streams a request body.
-/

namespace BufferedBodies

open CLib HttpRequestParser ParserPasses ProxyExchange KeepalivePool ForwardRelay EventLoop
open ConnectionTable Runs Function

/-- A parser that streams its body has none left to read. -/
def Passed (p : HttpParser) : Prop :=
  p.streamingBody = true → p.state = .done ∨ p.state = .error

def AllPassed (w : World) : Prop := ∀ i, Passed (w.clients i).parser

variable {w w' : World} {p : HttpParser}

theorem Passed.code (h : Passed p) (data : Bytes) : (httpParserFeed .default p data).2 ≠ 2 := by
  intro streams
  have fed := httpParserFeed_fed .default p data
  have streamed : p.streamingBody = true := by
    rcases fed.codes with failed | more | ⟨complete, _⟩ | ⟨_, streamed⟩
    · rw [streams] at failed
      exact absurd failed (by decide)
    · rw [streams] at more
      exact absurd more (by decide)
    · rw [streams] at complete
      exact absurd complete (by decide)
    · exact streamed
  rcases h streamed with done | failed
  · rcases AdvertisedPersistence.httpParserFeed_done done data with failed | ⟨complete, _, _⟩
    · rw [failed] at streams
      exact absurd streams (by decide)
    · rw [complete] at streams
      exact absurd streams (by decide)
  · rw [(httpParserFeed_error failed).2] at streams
    exact absurd streams (by decide)

/-- A positive code says that the whole request has been read. -/
theorem Passed.complete (h : Passed p) {data : Bytes}
    (positive : 0 < (httpParserFeed .default p data).2) :
    (httpParserFeed .default p data).1.state = .done := by
  rcases (httpParserFeed_fed .default p data).codes with failed | more | ⟨_, done⟩ | ⟨streams, _⟩
  · rw [failed] at positive
    exact absurd positive (by decide)
  · rw [more] at positive
    exact absurd positive (by decide)
  · exact done
  · exact absurd streams (h.code data)

/-- The state after an append that found no room is an error, too. -/
theorem Passed.fed (h : Passed p) (data : Bytes) : Passed (httpParserFeed .default p data).1 := by
  intro streamed
  have before := h ((httpParserFeed_fed .default p data).streamingBody.symm.trans streamed)
  rcases before with done | failed
  · rw [httpParserFeed]
    split
    · exact Or.inr rfl
    · rw [feedLoop, if_neg (by simp [done])]
      exact Or.inl done
  · exact Or.inr (httpParserFeed_error failed).1

theorem AllPassed.same (h : AllPassed w) (clients : w'.clients = w.clients) : AllPassed w' := by
  intro i
  rw [clients]
  exact h i

theorem AllPassed.setClient (h : AllPassed w) (i : Nat) {cd : ClientData}
    (passed : Passed cd.parser) : AllPassed (setClient i cd w) := by
  intro j
  change Passed (update w.clients i cd j).parser
  rw [update_apply]
  split
  · exact passed
  · exact h j

theorem AllPassed.connDel (h : AllPassed w) (c : Fd) : AllPassed (connDel c w) := by
  unfold EventLoop.connDel
  split
  · exact h
  split
  · exact h
  rename_i i _
  have freed : AllPassed (EventLoop.setClient i { w.clients i with
      fd := 0, sendingBody := false, sendRemaining := 0 } w) := h.setClient i (h i)
  exact freed.same rfl

theorem AllPassed.move (h : AllPassed w) (move : Move noRules w w') : AllPassed w' := by
  cases move with
  | other w' clients index counts nextConn dispatched => exact h.same clients
  | flags i cd same =>
    refine h.setClient i fun streamed => ?_
    rw [same.state]
    rcases same.streaming streamed with before | requested
    · exact h i before
    · exact requested.complete.elim Or.inl (h i)
  | reset i => exact h.setClient i fun streamed => absurd streamed Bool.false_ne_true
  | count i data => exact h.setClient i (h i)
  | feed i data ok => exact h.setClient i ((h i).fed data)
  | request c i data index some_data positive ok =>
    have stored : AllPassed (storeParser i
        (httpParserFeed .default (w.clients i).parser data).1 data.length w) :=
      h.setClient i ((h i).fed data)
    exact stored.same rfl
  | http i io unread => exact h.setClient i fun streamed => absurd streamed Bool.false_ne_true
  | enroll io i index unknown below ok =>
    have known : AllPassed (EventLoop.setClient i { w.clients i with peerIp := io.ip } w) :=
      h.setClient i (h i)
    exact known.same rfl
  | drop c => exact h.connDel c

theorem AllPassed.step (w : World) (e : EventLoop.Event) (h : AllPassed w) :
    AllPassed (EventLoop.step w e) := by
  have allowed : Allowed noRules w e :=
    allowed_of_admitted (fun _ => trivial) (fun _ _ => trivial)
  refine step_table_invariant (fun entry => ?_) AllPassed.move allowed
  cases entry with
  | none e => exact h
  | slot io i nonzero closed room free =>
    intro j
    change Passed (update w.clients i _ j).parser
    rw [update_apply]
    split
    · exact fun streamed => absurd streamed Bool.false_ne_true
    · exact h j
  | full io => exact h.same rfl

theorem run_passed (es : List EventLoop.Event) : AllPassed (run EventLoop.step World.init es) :=
  run_always AllPassed.step (fun _ streamed => absurd streamed Bool.false_ne_true) es

/-- `my_on_read` without what it does with a body that goes on. -/
def onBufferedData (c : Fd) (i : Nat) (data : Bytes) (io : DispatchIo) (w : World) : World :=
  let (parser, res) := httpParserFeed .default (w.clients i).parser data
  let w := storeParser i parser data.length w
  if res < 0 then connDel c w
  else if res = 0 then w
  else httpDispatcher i io w

/-- In no run does the parser report a body that goes on: whatever is read next on a connection,
its handlers are called with the complete request or not at all. -/
theorem bodies_buffered (es : List EventLoop.Event) (c : Fd) (i : Nat) (data : Bytes)
    (io : DispatchIo) :
    let w := run EventLoop.step World.init es
    let feed := httpParserFeed .default (w.clients i).parser data
    feed.2 ≠ 2 ∧ (0 < feed.2 → feed.1.state = .done) ∧
      onHttpData c i data io w = onBufferedData c i data io w := by
  have passed := run_passed es i
  refine ⟨passed.code data, passed.complete, ?_⟩
  have code := passed.code data
  unfold onHttpData onBufferedData
  generalize httpParserFeed .default _ data = feed at code
  dsimp only
  rw [if_neg code]

end BufferedBodies
