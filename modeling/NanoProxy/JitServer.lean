import NanoProxy.JitFraming
import NanoProxy.ResponseEnd

/-!
# The connections of the JIT backend (jit_backend/app.cy)

`http_handle_client` reads into one buffer that it doubles up to 4 MiB, cuts the request line
into C strings in place, and moves to the front what was read of later requests. The reads
come in any sizes.
-/

namespace JitServer

open CLib RequestDecoder JitFraming

/-- `HTTP_BUF_MAX` -/
def httpBufMax : Nat := 4 * 2 ^ 20

/-- `max_req` -/
def maxReq : Nat := 1000

/-- The bytes before the first line end. -/
def firstLine : Bytes → Bytes
  | [] => []
  | b :: t => if b = CR ∧ t.head? = some LF then [] else b :: firstLine t

/-- `ci_eq_n` at one of the positions. -/
def hasText (text : Bytes) : Bytes → Bool
  | [] => false
  | b :: t => lower ((b :: t).take text.length) == lower text || hasText text t

def isHttp10 (head : Bytes) : Bool := hasText (ascii "HTTP/1.0") (firstLine head)

/-- The value of the first line that starts with the key; `prev` is `buf[i - 1]`. -/
def connectionLine (prev : UInt8) : Bytes → Option Bytes
  | [] => none
  | b :: t =>
    if lower ((b :: t).take 11) = ascii "connection:" ∧ prev = LF
      then some ((((b :: t).drop 11).dropWhile (· == SP)).takeWhile fun c => c != CR && c != LF)
      else connectionLine b t

def isSeparator (b : UInt8) : Bool := b == SP || b == 44 || b == 9

def connectionHas (head token : Bytes) : Bool :=
  match connectionLine LF head with
  | none => false
  | some value => (value.splitOnP isSeparator).any fun word => lower word == lower token

def wantsClose (head : Bytes) : Bool :=
  if isHttp10 head then !connectionHas head (ascii "keep-alive")
  else connectionHas head (ascii "close")

/-- The buffer; a NUL stands behind the bytes that were read. -/
structure Conn where
  cap : Nat
  data : Bytes

/-- `recv`: the bytes that are there, as many as there is room for. No bytes are the end. -/
def recv (room : Nat) : List Bytes → Option (Bytes × List Bytes)
  | [] => none
  | chunk :: rest =>
    if chunk.take room = [] then none
    else some (chunk.take room, if chunk.length ≤ room then rest else chunk.drop room :: rest)

/-- The capacity for the next read, if the buffer may still grow. -/
def grow (conn : Conn) : Option Nat :=
  if conn.data.length + 1 < conn.cap then some conn.cap
  else if httpBufMax ≤ conn.cap then none
  else some (min (conn.cap * 2) httpBufMax)

/-- `header_end` and `content_len`, once the header block is there. -/
def header (data : Bytes) : Option (Nat × Int) :=
  (headerEnd data).map fun e => (e, contentLengthOf (data.take e))

/-- The loop that reads a request. Every round reads a byte, so that one round more than there
are bytes to come is enough (`readRequest_stream`). -/
def readRequest : Nat → Option (Nat × Int) → Conn → List Bytes →
    Option (Conn × List Bytes × Nat × Int)
  | 0, _, _, _ => none
  | fuel + 1, found, conn, chunks =>
    let found := found.or (header conn.data)
    match found.filter fun f => wrapLong (f.1 + f.2) ≤ conn.data.length with
    | some (e, n) => some (conn, chunks, e, n)
    | none => do
      let cap ← grow conn
      let (bytes, chunks) ← recv (cap - conn.data.length - 1) chunks
      readRequest fuel found ⟨cap, conn.data ++ bytes⟩ chunks

/-- A `Request` with what `req_attach_raw` adds. -/
structure Request where
  method : Bytes
  path : Bytes
  query : Bytes
  body : Bytes
  rawHead : Bytes
  rawBody : Bytes
  contentLen : Int
  deriving DecidableEq

/-- `strchr`, as an index. -/
def strchr (s : Bytes) (c : UInt8) : Option Nat := (cstr s).findIdx? (· == c)

/-- A NUL at the place of the byte, if it is found. -/
def cutAt (buf : Bytes) (start : Nat) (c : UInt8) : Bytes × Option Nat :=
  match strchr (buf.drop start) c with
  | some k => (buf.set (start + k) 0, some (start + k + 1))
  | none => (buf, none)

/-- The request line as C strings: the buffer, where the target starts, and the query. -/
def cutLine (buf : Bytes) : Option (Bytes × Nat × Option Nat) :=
  match cutAt buf 0 SP with
  | (_, none) => none
  | (buf, some target) =>
    let (buf, _) := cutAt buf target SP
    let (buf, query) := cutAt buf target 63
    some (buf, target, query)

/-- `body[content_len]` is a NUL while the handler runs. -/
def requestAt (buf : Bytes) (target : Nat) (query : Option Nat) (e : Nat) (n : Int) : Request :=
  let buf := buf.set (e + n).toNat 0
  { method := cstr buf
    path := cstr (buf.drop target)
    query := match query with
      | some q => cstr (buf.drop q)
      | none => []
    body := cstr (buf.drop e)
    rawHead := buf.take e
    rawBody := (buf.drop e).take n.toNat
    contentLen := n }

/-- `app_handle`, and `wire` with `keep_alive` set. -/
structure App (σ ρ : Type) where
  handle : σ → Request → σ × Option ρ
  wire : ρ → Bool → Bytes

/-- The sends of a response; each takes a part, and 0 stands for an error. -/
def sendAll : List Nat → Bytes → Bytes × List Nat
  | outs, [] => ([], outs)
  | [], msg => (msg, [])
  | 0 :: outs, _ => ([], outs)
  | n :: outs, msg =>
    let (sent, outs) := sendAll outs (msg.drop n)
    (msg.take n ++ sent, outs)

structure Log where
  calls : List Request
  sent : Bytes
  deriving DecidableEq

variable {σ ρ : Type} (app : App σ ρ)

/-- The loop over the requests, `left` of which may still come. No result is an access outside
of the buffer. -/
def serve : Nat → σ → Conn → List Bytes → List Nat → Option Log
  | 0, _, _, _, _ => some ⟨[], []⟩
  | left + 1, s, conn, chunks, outs =>
    match readRequest (chunks.flatten.length + 1) none conn chunks with
    | none => some ⟨[], []⟩
    | some (conn, chunks, e, n) =>
      let closeAfter := wantsClose (conn.data.take e) || left == 0
      match cutLine conn.data with
      | none => some ⟨[], []⟩
      | some (buf, target, query) =>
        let used := wrapLong (e + n)
        if used < 0 then none else
        let req := requestAt buf target query e n
        match app.handle s req with
        | (_, none) => some ⟨[req], []⟩
        | (s, some res) =>
          let (sent, outs) := sendAll outs (cstr (app.wire res !closeAfter))
          if closeAfter then some ⟨[req], sent⟩ else
          (serve left s ⟨conn.cap, buf.drop used.toNat⟩ chunks outs).map fun log =>
            ⟨req :: log.calls, sent ++ log.sent⟩

def httpHandleClient (s : σ) (chunks : List Bytes) (outs : List Nat) : Option Log :=
  serve app maxReq s ⟨8192, []⟩ chunks outs

/-- The first request of a stream, if it is complete and not too large. -/
def firstRequest (stream : Bytes) : Option (Nat × Int) :=
  (header stream).filter fun f => f.1 + f.2 ≤ stream.length && f.1 + f.2 < httpBufMax

def pathOf (target : Bytes) : Bytes := target.takeWhile (· != 63)

def queryOf (target : Bytes) : Bytes := target.drop ((pathOf target).length + 1)

/-- The header block with NULs between the parts of the request line. -/
def masked (method target later : Bytes) : Bytes :=
  method ++ 0 :: ((pathOf target ++ if 63 ∈ target then 0 :: queryOf target else []) ++ 0 :: later)

/-- The request line ends at its second space, and the path at a question mark. -/
def requestOf (head body : Bytes) : Request :=
  let method := head.takeWhile (· != SP)
  let rest := head.drop (method.length + 1)
  let target := rest.takeWhile (· != SP)
  { method := method
    path := pathOf target
    query := queryOf target
    body := cstr body
    rawHead := masked method target (rest.drop (target.length + 1))
    rawBody := body
    contentLen := body.length }

/-- What the backend does with a stream. -/
def replies : Nat → σ → Bytes → Log
  | 0, _, _ => ⟨[], []⟩
  | left + 1, s, stream =>
    match firstRequest stream with
    | none => ⟨[], []⟩
    | some (e, n) =>
      let head := stream.take e
      let req := requestOf head ((stream.drop e).take n.toNat)
      let closeAfter := wantsClose head || left == 0
      match app.handle s req with
      | (_, none) => ⟨[req], []⟩
      | (s, some res) =>
        let sent := cstr (app.wire res !closeAfter)
        if closeAfter then ⟨[req], sent⟩ else
        let log := replies left s (stream.drop (e + n.toNat))
        ⟨req :: log.calls, sent ++ log.sent⟩

/-- A header block that can be cut without touching what stands behind it. -/
structure Orderly (head : Bytes) : Prop where
  spaces : 2 ≤ head.count SP
  length : 0 ≤ contentLengthOf head
  fits : head.length + contentLengthOf head < 2 ^ 63

/-- Every header block that is read from the stream is orderly. -/
def AllOrderly : Nat → Bytes → Prop
  | 0, _ => True
  | left + 1, stream => ∀ e n, header stream = some (e, n) →
      Orderly (stream.take e) ∧ AllOrderly left (stream.drop (e + n.toNat))

variable {a b stream : Bytes} {e : Nat} {n : Int}

theorem headerEnd_le (found : headerEnd a = some e) : e ≤ a.length :=
  ResponseHead.headerBlockLen_le found

theorem headerEnd_within (found : headerEnd (a ++ b) = some e) (inside : e ≤ a.length) :
    headerEnd a = some e := by
  have cut : headerEnd ((a ++ b).take a.length) = some e :=
    ResponseEnd.headerBlockLen_take found inside
  rwa [List.take_left] at cut

theorem header_some : header a = some (e, n) ↔
    headerEnd a = some e ∧ contentLengthOf (a.take e) = n := by
  rw [header, Option.map_eq_some_iff]
  constructor
  · rintro ⟨_, found, same⟩
    cases same
    exact ⟨found, rfl⟩
  · rintro ⟨found, rfl⟩
    exact ⟨e, found, rfl⟩

theorem header_append (found : header a = some (e, n)) (b : Bytes) :
    header (a ++ b) = some (e, n) := by
  obtain ⟨ended, length⟩ := header_some.mp found
  refine header_some.mpr ⟨ResponseHead.headerBlockLen_append ended b, ?_⟩
  rwa [List.take_append_of_le_length (headerEnd_le ended)]

theorem header_within (found : header (a ++ b) = some (e, n)) (inside : e ≤ a.length) :
    header a = some (e, n) := by
  obtain ⟨ended, length⟩ := header_some.mp found
  refine header_some.mpr ⟨headerEnd_within ended inside, ?_⟩
  rwa [List.take_append_of_le_length inside] at length

theorem firstRequest_some : firstRequest stream = some (e, n) ↔
    header stream = some (e, n) ∧ e + n ≤ stream.length ∧ e + n < httpBufMax := by
  rw [firstRequest, Option.filter_eq_some_iff]
  simp

/-- The NUL behind the bytes has its place, and the buffer its limit. -/
structure Roomy (conn : Conn) : Prop where
  below : conn.data.length < conn.cap
  limit : conn.cap ≤ httpBufMax

/-- What may have come when no bytes are left to read. -/
def Delivering (chunks : List Bytes) : Prop := ∀ chunk ∈ chunks, chunk ≠ []

theorem grow_some {conn : Conn} (h : Roomy conn) {cap : Nat} (grown : grow conn = some cap) :
    conn.data.length + 1 < cap ∧ cap ≤ httpBufMax := by
  obtain ⟨below, limit⟩ := h
  rw [grow] at grown
  split at grown
  · cases grown
    omega
  split at grown
  · cases grown
  · cases grown
    omega

theorem grow_none {conn : Conn} (h : Roomy conn) (full : grow conn = none) :
    conn.data.length + 1 = httpBufMax := by
  obtain ⟨below, limit⟩ := h
  rw [grow] at full
  split at full
  · cases full
  split at full
  · omega
  · cases full

theorem recv_none {room : Nat} {chunks : List Bytes} (delivering : Delivering chunks)
    (roomy : 0 < room) (ended : recv room chunks = none) : chunks = [] := by
  cases chunks with
  | nil => rfl
  | cons chunk rest =>
    have some_bytes : chunk.take room ≠ [] := by
      rw [Ne, List.take_eq_nil_iff, not_or]
      exact ⟨Nat.ne_of_gt roomy, delivering chunk List.mem_cons_self⟩
    rw [recv, if_neg some_bytes] at ended
    cases ended

theorem recv_some {room : Nat} {chunks rest : List Bytes} {bytes : Bytes}
    (delivering : Delivering chunks) (got : recv room chunks = some (bytes, rest)) :
    bytes ≠ [] ∧ bytes.length ≤ room ∧ bytes ++ rest.flatten = chunks.flatten ∧
      Delivering rest := by
  cases chunks with
  | nil => cases got
  | cons chunk later =>
    rw [recv] at got
    split at got
    · cases got
    rename_i some_bytes
    cases got
    refine ⟨some_bytes, List.length_take_le _ _, ?_, ?_⟩
    · split
      · rename_i short
        rw [List.take_of_length_le short, List.flatten_cons]
      · rw [List.flatten_cons, List.flatten_cons, ← List.append_assoc, List.take_append_drop]
    · split
      · exact fun c listed => delivering c (List.mem_cons_of_mem _ listed)
      · rename_i long
        intro c listed
        rcases List.mem_cons.mp listed with rfl | later
        · rw [Ne, List.drop_eq_nil_iff]
          exact long
        · exact delivering c (List.mem_cons_of_mem _ later)

/-- How the loop over the reads ends. -/
inductive Reads (stream : Bytes) : Option (Conn × List Bytes × Nat × Int) → Prop
  | ended (first : firstRequest stream = none) : Reads stream none
  | request {conn : Conn} {chunks : List Bytes} {e : Nat} {n : Int}
      (first : firstRequest stream = some (e, n)) (roomy : Roomy conn)
      (delivering : Delivering chunks) (same : conn.data ++ chunks.flatten = stream)
      (inside : e + n ≤ conn.data.length) : Reads stream (some (conn, chunks, e, n))

def Sized (stream : Bytes) : Prop :=
  ∀ e n, header stream = some (e, n) → 0 ≤ n ∧ e + n < 2 ^ 63

theorem wrapLong_sized {v : Int} (low : 0 ≤ v) (high : v < 2 ^ 63) : wrapLong v = v := by
  obtain ⟨k, rfl⟩ := Int.eq_ofNat_of_zero_le low
  exact wrapLong_small (by omega)

/-- A request that the buffer does not hold is not complete. -/
theorem firstRequest_none {conn : Conn} {chunks : List Bytes}
    (sized : Sized (conn.data ++ chunks.flatten))
    (waiting : ((header conn.data).filter fun f =>
      decide (wrapLong (f.1 + f.2) ≤ conn.data.length)) = none)
    (ended : chunks = [] ∨ conn.data.length + 1 = httpBufMax) :
    firstRequest (conn.data ++ chunks.flatten) = none := by
  rw [Option.eq_none_iff_forall_ne_some]
  rintro ⟨e, n⟩ first
  obtain ⟨found, complete, small⟩ := firstRequest_some.mp first
  obtain ⟨low, high⟩ := sized e n found
  have inside : e + n ≤ conn.data.length := by
    rcases ended with rfl | full
    · simpa using complete
    · omega
  have here := header_within found (by omega)
  rw [here, Option.filter_some, if_pos] at waiting
  · cases waiting
  · rw [decide_eq_true_eq, wrapLong_sized (by omega) high]
    exact inside

theorem readRequest_stream (fuel : Nat) {found : Option (Nat × Int)} {conn : Conn}
    {chunks : List Bytes} (roomy : Roomy conn) (delivering : Delivering chunks)
    (enough : chunks.flatten.length < fuel) (known : found = none ∨ found = header conn.data)
    (sized : Sized (conn.data ++ chunks.flatten)) :
    Reads (conn.data ++ chunks.flatten) (readRequest fuel found conn chunks) := by
  induction fuel generalizing found conn chunks with
  | zero => exact absurd enough (Nat.not_lt_zero _)
  | succ fuel ih =>
    have current : found.or (header conn.data) = header conn.data := by
      rcases known with rfl | rfl
      · exact Option.none_or
      · exact Option.or_self
    rw [readRequest]
    dsimp only
    rw [current]
    split
    · rename_i e n complete
      obtain ⟨here, reached⟩ := Option.filter_eq_some_iff.mp complete
      have whole := header_append here chunks.flatten
      obtain ⟨low, high⟩ := sized e n whole
      have inside : e + n ≤ conn.data.length := by
        rwa [decide_eq_true_eq, wrapLong_sized (by omega) high] at reached
      obtain ⟨below, limit⟩ := roomy
      refine .request (firstRequest_some.mpr ⟨whole, ?_, by omega⟩) ⟨below, limit⟩ delivering rfl
        inside
      rw [List.length_append]
      omega
    · rename_i waiting
      cases grown : grow conn with
      | none => exact .ended (firstRequest_none sized waiting (Or.inr (grow_none roomy grown)))
      | some cap =>
        obtain ⟨room, limit⟩ := grow_some roomy grown
        rw [Option.bind_eq_bind, Option.bind_some]
        cases got : recv (cap - conn.data.length - 1) chunks with
        | none =>
          have ended := recv_none delivering (by omega) got
          exact .ended (firstRequest_none sized waiting (Or.inl ended))
        | some read =>
          obtain ⟨bytes, rest⟩ := read
          obtain ⟨some_bytes, short, same, later⟩ := recv_some delivering got
          have progress : rest.flatten.length < chunks.flatten.length := by
            have positive := List.length_pos_iff.mpr some_bytes
            rw [← same, List.length_append]
            omega
          have stream : (conn.data ++ bytes) ++ rest.flatten = conn.data ++ chunks.flatten := by
            rw [List.append_assoc, same]
          have next := @ih (header conn.data) ⟨cap, conn.data ++ bytes⟩ rest
            ⟨by change (conn.data ++ bytes).length < cap; rw [List.length_append]; omega, limit⟩
            later (by omega) ?_ (by rwa [stream])
          · rwa [stream] at next
          · cases here : header conn.data with
            | none => exact Or.inl rfl
            | some f => exact Or.inr (header_append here bytes).symm

variable {c : UInt8} {head tail : Bytes}

theorem cstr_cut (a t : Bytes) : cstr (a ++ 0 :: t) = cstr a := by
  induction a with
  | nil => rfl
  | cons b a ih =>
    by_cases zero : b = 0
    · subst zero
      rfl
    · rw [List.cons_append, cstr, cstr, List.takeWhile_cons_of_pos (by simpa using zero),
        List.takeWhile_cons_of_pos (by simpa using zero)]
      exact congrArg (b :: ·) ih

theorem cstr_text (text : 0 ∉ a) (t : Bytes) : cstr (a ++ 0 :: t) = a := by
  rw [cstr_cut, RequestGrammar.cstr_eq_self text]

theorem strchr_found (text : 0 ∉ a) (first : c ∉ a) (nonzero : c ≠ 0) (t : Bytes) :
    strchr (a ++ c :: t) c = some a.length := by
  induction a with
  | nil =>
    rw [strchr, cstr, List.nil_append, List.takeWhile_cons_of_pos (by simpa using nonzero),
      List.findIdx?_cons, if_pos (beq_self_eq_true c)]
    rfl
  | cons b a ih =>
    rw [List.mem_cons, not_or] at text first
    have plain : (b != 0) = true := by simpa using fun same : b = 0 => text.1 same.symm
    have other : ¬(b == c) = true := by simpa using fun same : b = c => first.1 same.symm
    have later := ih text.2 first.2
    rw [strchr, cstr] at later
    rw [strchr, cstr, List.cons_append, List.takeWhile_cons, if_pos plain, List.findIdx?_cons,
      if_neg other, later]
    rfl

theorem strchr_missing (missing : c ∉ cstr a) : strchr a c = none := by
  rw [strchr, List.findIdx?_eq_none_iff]
  intro b listed
  exact beq_eq_false_iff_ne.mpr fun same => missing (same ▸ listed)

theorem cutAt_found (pre : Bytes) (text : 0 ∉ a) (first : c ∉ a) (nonzero : c ≠ 0) (t : Bytes) :
    cutAt (pre ++ (a ++ c :: t)) pre.length c =
      (pre ++ (a ++ 0 :: t), some (pre.length + a.length + 1)) := by
  rw [cutAt, List.drop_left, strchr_found text first nonzero]
  dsimp only
  rw [List.set_append_right _ _ (Nat.le_add_right _ _), Nat.add_sub_cancel_left,
    List.set_append_right _ _ (Nat.le_refl _), Nat.sub_self, List.set_cons_zero]

theorem cutAt_missing (pre : Bytes) (text : 0 ∉ a) (missing : c ∉ a) (t : Bytes) :
    cutAt (pre ++ (a ++ 0 :: t)) pre.length c = (pre ++ (a ++ 0 :: t), none) := by
  rw [cutAt, List.drop_left, strchr_missing (by rwa [cstr_text text])]

/-- The bytes before and behind the first `c`. -/
theorem split_first (listed : c ∈ a) : a = a.takeWhile (· != c) ++
    c :: a.drop ((a.takeWhile (· != c)).length + 1) := by
  induction a with
  | nil => exact absurd listed List.not_mem_nil
  | cons b a ih =>
    by_cases same : b = c
    · subst same
      simp
    · have later := ih ((List.mem_cons.mp listed).resolve_left fun eq => same eq.symm)
      rw [List.takeWhile_cons_of_pos (by simpa using same), List.length_cons, List.drop_succ_cons,
        List.cons_append, ← later]

theorem takeWhile_missing (c : UInt8) (a : Bytes) : c ∉ a.takeWhile (· != c) := by
  intro listed
  simpa using List.mem_takeWhile_imp listed

theorem cstr_set {k : Nat} (inside : k ≤ a.length) : cstr (a.set k 0) = cstr (a.take k) := by
  rcases Nat.lt_or_eq_of_le inside with below | rfl
  · rw [List.set_eq_take_append_cons_drop, if_pos below, cstr_cut]
  · rw [List.set_eq_of_length_le (Nat.le_refl _), List.take_length]

/-- What the handler is given depends on the header block and on the body only. -/
theorem requestAt_cut {pre : Bytes} (target : Nat) (query : Option Nat) {k : Nat}
    (inside : k ≤ tail.length) : requestAt (pre ++ tail) target query pre.length k =
      { method := cstr (pre ++ tail.set k 0)
        path := cstr ((pre ++ tail.set k 0).drop target)
        query := match query with
          | some q => cstr ((pre ++ tail.set k 0).drop q)
          | none => []
        body := cstr (tail.take k)
        rawHead := pre
        rawBody := tail.take k
        contentLen := k } := by
  have place : ((pre.length : Int) + (k : Int)).toNat = pre.length + k := by omega
  have cut : (pre ++ tail).set (pre.length + k) 0 = pre ++ tail.set k 0 := by
    rw [List.set_append_right _ _ (Nat.le_add_right _ _), Nat.add_sub_cancel_left]
  unfold requestAt
  rw [place, cut]
  dsimp only
  rw [List.drop_left, List.take_left, cstr_set inside, Int.toNat_natCast,
    List.take_set_of_le (Nat.le_refl k)]

/-- Where the query starts. -/
def queryAt (method target : Bytes) : Option Nat :=
  if 63 ∈ target then some (method.length + 1 + (pathOf target).length + 1) else none

variable {method target later : Bytes}

theorem target_parts (query : 63 ∈ target) : target = pathOf target ++ 63 :: queryOf target :=
  split_first query

theorem pathOf_plain (plain : 63 ∉ target) : pathOf target = target := by
  rw [pathOf, List.takeWhile_eq_self_iff]
  intro b listed
  exact bne_iff_ne.mpr fun same => plain (same ▸ listed)

theorem masked_length :
    (masked method target later).length = (method ++ SP :: (target ++ SP :: later)).length := by
  have parts : (pathOf target ++ if 63 ∈ target then 0 :: queryOf target else []).length =
      target.length := by
    split
    · rename_i query
      conv_rhs => rw [target_parts query]
      simp
    · rename_i plain
      rw [pathOf_plain plain, List.append_nil]
  simp only [masked, List.length_append, List.length_cons] at parts ⊢
  omega

theorem cutLine_eq (method_text : 0 ∉ method) (no_space : SP ∉ method) (target_text : 0 ∉ target)
    (no_space' : SP ∉ target) (later tail : Bytes) :
    cutLine (method ++ SP :: (target ++ SP :: later) ++ tail) =
      some (masked method target later ++ tail, method.length + 1, queryAt method target) := by
  have nonzero : SP ≠ 0 := by decide
  have space := cutAt_found [] method_text no_space nonzero (target ++ SP :: later ++ tail)
  have space' := cutAt_found (method ++ [0]) target_text no_space' nonzero (later ++ tail)
  simp only [List.append_assoc, List.cons_append, List.nil_append, List.length_nil,
    List.length_append, List.length_cons, Nat.zero_add] at space space'
  rw [cutLine]
  simp only [List.append_assoc, List.cons_append]
  rw [space]
  dsimp only
  rw [space']
  dsimp only
  by_cases query : 63 ∈ target
  · have mark := cutAt_found (method ++ [0])
      (fun zero => target_text (target_parts query ▸ List.mem_append_left _ zero))
      (takeWhile_missing 63 target) (by decide) (queryOf target ++ 0 :: (later ++ tail))
    simp only [List.append_assoc, List.cons_append, List.nil_append, List.length_nil,
      List.length_append, List.length_cons, Nat.zero_add] at mark
    conv_lhs => rw [target_parts query]
    simp only [List.append_assoc, List.cons_append]
    rw [mark, masked, queryAt, if_pos query, if_pos query]
    simp
  · have mark := cutAt_missing (method ++ [0]) target_text query (later ++ tail)
    simp only [List.append_assoc, List.cons_append, List.nil_append, List.length_nil,
      List.length_append, List.length_cons, Nat.zero_add] at mark
    rw [mark, masked, queryAt, if_neg query, if_neg query, pathOf_plain query]
    simp

theorem requestAt_eq (method_text : 0 ∉ method) (target_text : 0 ∉ target) (later : Bytes)
    {k : Nat} (inside : k ≤ tail.length) :
    requestAt (masked method target later ++ tail) (method.length + 1) (queryAt method target)
        (masked method target later).length k =
      { method := method
        path := pathOf target
        query := queryOf target
        body := cstr (tail.take k)
        rawHead := masked method target later
        rawBody := tail.take k
        contentLen := k } := by
  rw [requestAt_cut _ _ inside]
  generalize tail.set k 0 = tail'
  congr 1
  · rw [masked, List.append_assoc, List.cons_append, cstr_text method_text]
  · have behind : (masked method target later ++ tail').drop (method.length + 1) =
        (pathOf target ++ if 63 ∈ target then 0 :: queryOf target else []) ++ 0 :: later ++ tail' := by
      rw [masked, List.append_assoc, List.drop_length_add_append, List.cons_append,
        List.drop_succ_cons, List.drop_zero, List.append_assoc]
    have path_text : 0 ∉ pathOf target :=
      fun zero => target_text ((List.takeWhile_prefix _).mem zero)
    rw [behind, List.append_assoc, List.append_assoc]
    split
    · rw [List.cons_append, cstr_text path_text]
    · rw [List.nil_append, List.cons_append, cstr_text path_text]
  · have query_text : 0 ∉ queryOf target :=
      fun zero => target_text ((List.drop_suffix _ _).mem zero)
    unfold queryAt
    by_cases query : 63 ∈ target
    · rw [if_pos query, masked, if_pos query, List.append_assoc, Nat.add_assoc, Nat.add_assoc]
      dsimp only
      rw [List.drop_length_add_append, Nat.add_comm 1, List.cons_append, List.drop_succ_cons,
        List.append_assoc, List.append_assoc, List.drop_length_add_append, List.cons_append,
        List.drop_succ_cons, List.drop_zero, List.cons_append, cstr_text query_text]
    · rw [if_neg query, queryOf, pathOf_plain query, List.drop_eq_nil_of_le (Nat.le_succ _)]

/-- A header block with its two spaces. -/
theorem head_parts (spaces : 2 ≤ head.count SP) :
    ∃ method target later, SP ∉ method ∧ SP ∉ target ∧
      head = method ++ SP :: (target ++ SP :: later) ∧
      ∀ body, requestOf head body =
        { method := method
          path := pathOf target
          query := queryOf target
          body := cstr body
          rawHead := masked method target later
          rawBody := body
          contentLen := body.length } := by
  have first := split_first (List.count_pos_iff.mp (Nat.lt_of_lt_of_le Nat.zero_lt_two spaces))
  have behind : 0 < (head.drop ((head.takeWhile (· != SP)).length + 1)).count SP := by
    rw [first, List.count_append, List.count_eq_zero_of_not_mem (takeWhile_missing SP head),
      List.count_cons_self] at spaces
    omega
  have second := split_first (List.count_pos_iff.mp behind)
  refine ⟨_, _, _, takeWhile_missing SP head, takeWhile_missing SP _, ?_, fun _ => rfl⟩
  rw [← second]
  exact first

theorem header_text (found : header a = some (e, n)) : 0 ∉ a.take e := by
  obtain ⟨ended, _⟩ := header_some.mp found
  obtain ⟨i, here, rfl⟩ := Option.map_eq_some_iff.mp ended
  have inside : i + 4 ≤ (cstr a).length := ResponseHead.strstr_le here
  obtain ⟨t, whole⟩ : cstr a <+: a := List.takeWhile_prefix _
  intro zero
  rw [← whole, List.take_append_of_le_length inside] at zero
  simpa using List.mem_takeWhile_imp (List.mem_of_mem_take zero)

/-- The handler of an orderly request is given the request as it stands in the stream. -/
theorem cutLine_orderly (found : header a = some (e, n)) (orderly : Orderly (a.take e))
    (inside : e + n ≤ a.length) :
    ∃ buf target query, cutLine a = some (buf, target, query) ∧
      requestAt buf target query e n = requestOf (a.take e) ((a.drop e).take n.toNat) ∧
      buf.drop (e + n.toNat) = a.drop (e + n.toNat) := by
  obtain ⟨ended, length⟩ := header_some.mp found
  have text := header_text found
  have size : (a.take e).length = e := List.length_take_of_le (headerEnd_le ended)
  obtain ⟨spaces, low, -⟩ := orderly
  rw [length] at low
  obtain ⟨k, rfl⟩ := Int.eq_ofNat_of_zero_le low
  obtain ⟨method, target, later, no_space, no_space', parts, request⟩ := head_parts spaces
  have cut : a = method ++ SP :: (target ++ SP :: later) ++ a.drop e := by
    rw [← parts, List.take_append_drop]
  rw [parts, List.mem_append, List.mem_cons, List.mem_append] at text
  push Not at text
  have line := cutLine_eq text.1 no_space text.2.2.1 no_space' later (a.drop e)
  have whole : (masked method target later).length = e := by
    rw [masked_length, ← parts, size]
  have room : k ≤ (a.drop e).length := by
    rw [List.length_drop]
    omega
  rw [← cut] at line
  refine ⟨_, _, _, line, ?_, ?_⟩
  · have given := requestAt_eq text.1 text.2.2.1 later room
    rw [whole] at given
    rw [given, request, Int.toNat_natCast, List.length_take_of_le room]
  · rw [Int.toNat_natCast]
    rw [← whole, List.drop_length_add_append, List.drop_drop]

theorem sendAll_whole {outs : List Nat} (working : ∀ n ∈ outs, 0 < n) (msg : Bytes) :
    (sendAll outs msg).1 = msg ∧ ∀ n ∈ (sendAll outs msg).2, 0 < n := by
  induction outs generalizing msg with
  | nil => cases msg <;> exact ⟨rfl, working⟩
  | cons n outs ih =>
    cases msg with
    | nil => exact ⟨rfl, working⟩
    | cons b msg =>
      cases n with
      | zero => exact absurd (working 0 List.mem_cons_self) (Nat.lt_irrefl 0)
      | succ n =>
        obtain ⟨whole, later⟩ := ih (fun m listed => working m (List.mem_cons_of_mem _ listed))
          ((b :: msg).drop (n + 1))
        refine ⟨?_, later⟩
        change (b :: msg).take (n + 1) ++ (sendAll outs ((b :: msg).drop (n + 1))).1 = b :: msg
        rw [whole, List.take_append_drop]

variable {app}

/-- Whatever the sends do, the calls are those of the stream; if none fails, so is what is
sent. -/
def Answers (result : Option Log) (expected : Log) (outs : List Nat) : Prop :=
  ∃ log, result = some log ∧ log.calls = expected.calls ∧
    ((∀ n ∈ outs, 0 < n) → log.sent = expected.sent)

theorem serve_replies (left : Nat) (s : σ) {conn : Conn} {chunks : List Bytes} (outs : List Nat)
    (roomy : Roomy conn) (delivering : Delivering chunks)
    (orderly : AllOrderly left (conn.data ++ chunks.flatten)) :
    Answers (serve app left s conn chunks outs)
      (replies app left s (conn.data ++ chunks.flatten)) outs := by
  induction left generalizing s conn chunks outs with
  | zero => exact ⟨_, rfl, rfl, fun _ => rfl⟩
  | succ left ih =>
    have sized : Sized (conn.data ++ chunks.flatten) := by
      intro e n found
      obtain ⟨⟨-, low, fits⟩, -⟩ := orderly e n found
      obtain ⟨ended, rfl⟩ := header_some.mp found
      rw [List.length_take_of_le (headerEnd_le ended)] at fits
      exact ⟨low, fits⟩
    have reads := readRequest_stream (chunks.flatten.length + 1) roomy delivering
      (Nat.lt_succ_self _) (Or.inl rfl) sized
    generalize conn.data ++ chunks.flatten = stream at *
    rw [serve, replies]
    generalize readRequest (chunks.flatten.length + 1) none conn chunks = read at reads
    cases reads with
    | ended first =>
      rw [first]
      exact ⟨_, rfl, rfl, fun _ => rfl⟩
    | @request conn chunks e n first roomy delivering same inside =>
      obtain ⟨found, -, -⟩ := firstRequest_some.mp first
      obtain ⟨head_orderly, later⟩ := orderly e n found
      obtain ⟨low, high⟩ := sized e n found
      have here := header_within (same ▸ found) (by omega : e ≤ conn.data.length)
      have head : stream.take e = conn.data.take e := by
        rw [← same, List.take_append_of_le_length (by omega)]
      have body : (stream.drop e).take n.toNat = (conn.data.drop e).take n.toNat := by
        rw [← same, List.drop_append_of_le_length (by omega), List.take_append_of_le_length]
        rw [List.length_drop]
        omega
      have rest : stream.drop (e + n.toNat) =
          conn.data.drop (e + n.toNat) ++ chunks.flatten := by
        rw [← same, List.drop_append_of_le_length (by omega)]
      rw [head] at head_orderly
      obtain ⟨buf, target, query, cut, request, left_over⟩ :=
        cutLine_orderly here head_orderly inside
      have used : wrapLong (e + n) = (e + n.toNat : Nat) := by
        rw [wrapLong_sized (by omega) high]
        omega
      rw [first]
      dsimp only
      rw [cut, head, body]
      dsimp only
      rw [used, if_neg (by omega), request]
      generalize requestOf _ _ = req
      generalize (wantsClose (conn.data.take e) || left == 0) = closeAfter
      cases app.handle s req with
      | mk s' answer =>
        cases answer with
        | none => exact ⟨_, rfl, rfl, fun _ => rfl⟩
        | some res =>
          dsimp only
          have sends := @sendAll_whole outs
          generalize cstr (app.wire res !closeAfter) = msg
          have sending := fun working => sends working msg
          generalize sendAll outs msg = sent at sending
          obtain ⟨sent, outs'⟩ := sent
          cases closeAfter with
          | true => exact ⟨_, rfl, rfl, fun working => (sending working).1⟩
          | false =>
            rw [rest, Int.toNat_natCast, left_over]
            rw [rest] at later
            have behind : Roomy ⟨conn.cap, conn.data.drop (e + n.toNat)⟩ := by
              refine ⟨?_, roomy.limit⟩
              rw [List.length_drop]
              exact Nat.lt_of_le_of_lt (Nat.sub_le _ _) roomy.below
            obtain ⟨log, served, calls, whole⟩ := ih s' outs' behind delivering later
            refine ⟨⟨req :: log.calls, sent ++ log.sent⟩, ?_, ?_, fun working => ?_⟩
            · dsimp only
              rw [served]
              rfl
            · exact congrArg (req :: ·) calls
            · obtain ⟨this, rest_working⟩ := sending working
              dsimp only at this ⊢
              rw [whole rest_working, this]
              rfl

theorem allOrderly_end (left : Nat) (ended : header stream = none) : AllOrderly left stream := by
  cases left with
  | zero => trivial
  | succ left =>
    intro e n found
    rw [ended] at found
    cases found

/-- However the bytes of a connection are split into reads, the handler is called with the
requests of the stream in their order, and with nothing else; what is sent is the responses,
unless a send fails. -/
theorem httpHandleClient_replies (app : App σ ρ) (s : σ) {chunks : List Bytes} (outs : List Nat)
    (delivering : Delivering chunks) (orderly : AllOrderly maxReq chunks.flatten) :
    Answers (httpHandleClient app s chunks outs) (replies app maxReq s chunks.flatten) outs :=
  serve_replies maxReq s outs ⟨by decide, by decide⟩ delivering orderly

/-- The n-th response is its number. -/
def counter : App Nat Nat where
  handle := fun n _ => (n + 1, some n)
  wire := fun n _ => decimal n

def sampleChunks : List Bytes :=
  [ascii "POST /a?b HTTP/1.1\r\nContent-Len", ascii "gth: 2\r\n\r\nhi"]

theorem sample_orderly : AllOrderly maxReq sampleChunks.flatten := by
  change AllOrderly (999 + 1) sampleChunks.flatten
  intro e n found
  have first : header sampleChunks.flatten = some (41, 2) := by decide +kernel
  rw [first] at found
  cases found
  exact ⟨⟨by decide +kernel, by decide +kernel, by decide +kernel⟩,
    allOrderly_end _ (by decide +kernel)⟩

theorem httpHandleClient_replies_sample :
    Answers (httpHandleClient counter 0 sampleChunks [1])
      (replies counter maxReq 0 sampleChunks.flatten) [1] :=
  httpHandleClient_replies counter 0 [1] (by unfold Delivering; decide +kernel) sample_orderly

/-- Without the spaces the cuts fall on what has been read behind the request. -/
example : httpHandleClient counter 0 [ascii "A\r\n\r\nB C D\r\n\r\n"] [] ≠
    httpHandleClient counter 0 [ascii "A\r\n\r\n", ascii "B C D\r\n\r\n"] [] := by
  decide +kernel

end JitServer
