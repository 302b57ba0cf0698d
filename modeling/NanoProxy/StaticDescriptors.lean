import NanoProxy.ParserPasses
import NanoProxy.StaticBody

/-!
# The descriptors of static files (include/request.h, include/socket_server.h)

One client connection whose requests go to `http_static_dir`. The send state is followed
through every way out of the handler and of `resume_send`; what is in the buffer is left to
`StaticBody`, here a read or a write is the number of its bytes. A descriptor is named by
the `open` that returned it, so that a number that the kernel gives out again is a new name.
-/

namespace StaticDescriptors

open CLib HttpRequestParser ProxyExchange StaticBody Runs
open EventLoop (CHUNK_SIZE)

/-- The mask that `event_mod` has set. -/
inductive Events where
  | read
  | write
  deriving DecidableEq

/-- The part of a `client_data` that static files use; `sendBuffer` says that `send_buffer` is
not NULL. The last three fields are a record: how many descriptors `open` has returned, what
was closed, and how much of the Content-Length of the last response is still to be sent. -/
structure Conn where
  parser : HttpParser
  alive : Bool
  tls : Bool
  events : Events
  sendingBody : Bool
  sendFileFd : Option Nat
  sendOffset : Nat
  sendRemaining : Nat
  useSendfile : Bool
  sendBuffer : Bool
  sendBufLen : Nat
  sendBufPos : Nat
  opened : Nat
  closed : List Nat
  owed : Nat

def connAdd (fd : Nat) (tls : Bool) : Conn where
  parser := httpParserInit fd
  alive := true
  tls := tls
  events := .read
  sendingBody := false
  sendFileFd := none
  sendOffset := 0
  sendRemaining := 0
  useSendfile := false
  sendBuffer := false
  sendBufLen := 0
  sendBufPos := 0
  opened := 0
  closed := []
  owed := 0

def closeFd (fd : Nat) (c : Conn) : Conn := { c with closed := c.closed ++ [fd] }

def cleanupSendState (c : Conn) : Conn :=
  let c := match c.sendFileFd with
    | some fd => { closeFd fd c with sendFileFd := none }
    | none => c
  { c with
    sendBuffer := false, sendOffset := 0, sendRemaining := 0, sendBufLen := 0, sendBufPos := 0
    sendingBody := false }

def connDel (c : Conn) : Conn :=
  if !c.alive then c else { cleanupSendState c with alive := false }

def resetParser (c : Conn) : Conn := { c with parser := httpParserReset c.parser }

def eventMod (events : Events) (c : Conn) : Conn := { c with events := events }

/-- The end of a response. -/
def keepOrDelete (c : Conn) : Conn :=
  if httpShouldKeepAlive c.parser.req then resetParser c else connDel c

/-- What `read` got (0 also when it failed), and what `sendfile` or `send` took. -/
structure SendIo where
  read : Nat
  write : WriteResult

def finishSend (c : Conn) : Conn := keepOrDelete (eventMod .read (cleanupSendState c))

/-- The count of `send_remaining`. -/
def account (sent : Nat) (c : Conn) : Conn :=
  let c := { c with sendRemaining := usub c.sendRemaining sent, owed := c.owed - sent }
  if c.sendRemaining = 0 then finishSend c else eventMod .write c

def sendWithSendfile (r : WriteResult) (c : Conn) : Conn :=
  match r.taken c.sendRemaining with
  | none => connDel (cleanupSendState c)
  | some n => account n { c with sendOffset := c.sendOffset + n }

def sendBuffered (r : WriteResult) (c : Conn) : Conn :=
  match socketWrite true (c.sendBufLen - c.sendBufPos) r with
  | none => connDel (cleanupSendState c)
  | some n => account n { c with sendBufPos := c.sendBufPos + n }

/-- A buffer that was sent is filled again, unless it came without a file. -/
def refillAndSend (io : SendIo) (c : Conn) : Conn :=
  if c.sendFileFd = none then finishSend c else
  let r := min io.read CHUNK_SIZE
  if r = 0 then cleanupSendState c
  else sendBuffered io.write { c with sendBufLen := r, sendBufPos := 0 }

def resumeSend (io : SendIo) (c : Conn) : Conn :=
  if !c.alive then c
  else if !c.sendingBody || c.sendRemaining = 0 then c
  else if c.useSendfile then sendWithSendfile io.write c
  else if c.sendBufPos = c.sendBufLen then refillAndSend io c
  else sendBuffered io.write c

def isCompressibleMime (mime : Bytes) : Bool :=
  mime.take 5 = ascii "text/" || mime = ascii "application/javascript" ||
    mime = ascii "application/json" || mime = ascii "application/xml" ||
    mime = ascii "image/svg+xml"

def GZIP_MAX_SIZE : Nat := 5 * 1024 * 1024
def GZIP_MIN_SIZE : Nat := 256

/-- A file that `open` has opened; `st_size` is an `off_t`. -/
structure File where
  size : Nat
  mime : Bytes
  representable : size < 2 ^ 63
  deriving DecidableEq

/-- What `gzip_compress_buf` returns; a gzip stream has at least its header. -/
structure Gzip where
  len : Nat
  nonempty : 0 < len

/-- The results of the calls that `http_static_dir` makes: the file, unless one of the
checks before `open`, or `open` itself, sends an error; `lseek`; `http_build_response`, for
either header; the compressed file, unless `malloc`, `read` or zlib fails; `malloc` of
`send_buffer`; the first `resume_send`. -/
structure StaticIo where
  file : Option File
  seeks : Bool
  built : Bool
  gzip : Option Gzip
  gzipBuilt : Bool
  allocated : Bool
  send : SendIo

/-- The part of the file, and `is_range`, for the headers of `req`. -/
def bodyOf (req : HttpRequest) (file : File) : Body :=
  chosenBody file.size (shget req.headers (ascii "range"))

def isRange (req : HttpRequest) (file : File) : Bool :=
  let (rangeStart, rangeEnd) := rangeBounds file.size (shget req.headers (ascii "range"))
  hasRange (shget req.headers (ascii "range")) && 0 ≤ rangeStart && rangeStart ≤ rangeEnd &&
    rangeEnd < file.size

def isHead (req : HttpRequest) : Bool := req.method = some (ascii "HEAD")

def doGzip (req : HttpRequest) (file : File) : Bool :=
  !isRange req file && !isHead req && isCompressibleMime file.mime &&
    GZIP_MIN_SIZE ≤ file.size && file.size ≤ GZIP_MAX_SIZE &&
    match shget req.headers (ascii "accept-encoding") with
    | some val => (strstr (ascii "gzip") val).isSome
    | none => false

/-- The compressed body that is sent instead of the file. -/
def compressed (req : HttpRequest) (file : File) (io : StaticIo) : Option Gzip :=
  if doGzip req file then io.gzip.filter fun gz => gz.len < file.size else none

/-- `http_error` has no body. -/
def httpError (c : Conn) : Conn := { c with owed := 0 }

def openFile (c : Conn) : Conn := { c with opened := c.opened + 1 }

def setMemory (gz : Gzip) (c : Conn) : Conn :=
  { c with
    sendingBody := true, sendFileFd := none, sendOffset := 0, sendRemaining := gz.len
    useSendfile := false, sendBuffer := true, sendBufLen := gz.len, sendBufPos := 0
    owed := gz.len }

def sendCompressed (gz : Gzip) (io : StaticIo) (c : Conn) : Conn :=
  if !io.gzipBuilt then httpError c else resumeSend io.send (setMemory gz c)

def sendHead (c : Conn) : Conn :=
  let c := { c with owed := 0 }
  if httpShouldKeepAlive c.parser.req then eventMod .read (resetParser c) else connDel c

def setFile (fd : Nat) (b : Body) (c : Conn) : Conn :=
  { c with
    sendingBody := true, sendFileFd := some fd, sendOffset := b.start
    sendRemaining := b.contentLen, useSendfile := !c.tls, owed := b.contentLen }

def setBuffer (c : Conn) : Conn := { c with sendBuffer := true, sendBufLen := 0, sendBufPos := 0 }

/-- `malloc` comes after `send_file_fd` has been set. -/
def sendFile (fd : Nat) (b : Body) (io : StaticIo) (c : Conn) : Conn :=
  let c := setFile fd b c
  if !io.allocated then closeFd fd (httpError { c with sendBuffer := false })
  else resumeSend io.send (setBuffer c)

def httpStaticDir (io : StaticIo) (c : Conn) : Conn :=
  let req := c.parser.req
  if req.method ≠ some (ascii "GET") ∧ !isHead req then httpError c else
  match io.file with
  | none => httpError c
  | some file =>
    let fd := c.opened
    let c := openFile c
    if isRange req file ∧ !io.seeks then httpError (closeFd fd c)
    else if !io.built then httpError (closeFd fd c)
    else match compressed req file io with
      | some gz => sendCompressed gz io (closeFd fd c)
      | none =>
        if isHead req then sendHead (closeFd fd c)
        else sendFile fd (bodyOf req file) io c

def persistOrClose (keepAlive : Bool) (c : Conn) : Conn :=
  if keepAlive then resetParser c
  else if !c.sendingBody || c.sendRemaining = 0 then connDel c
  else c

def httpDispatcher (io : StaticIo) (c : Conn) : Conn :=
  let keepAlive := httpShouldKeepAlive c.parser.req
  persistOrClose keepAlive (httpStaticDir io c)

def onData (data : Bytes) (io : StaticIo) (c : Conn) : Conn :=
  let (parser, res) := httpParserFeed .default c.parser data
  let c := { c with parser := parser }
  if res < 0 then connDel c
  else if res = 0 then c
  else httpDispatcher io c

/-- `deleted` is a hang-up, a read error or a timeout. -/
inductive Event where
  | readable (data : Bytes) (io : StaticIo)
  | writable (io : SendIo)
  | deleted

def step (c : Conn) : Event → Conn
  | .readable data io => if c.alive ∧ c.events = .read then onData data io c else c
  | .writable io => if c.events = .write then resumeSend io c else c
  | .deleted => connDel c

def Clean (c : Conn) : Prop :=
  c.sendFileFd = none ∧ c.sendBuffer = false ∧ c.sendingBody = false

/-- A descriptor is closed once, unless it is the one that is being sent, and when a response
is out nothing of it is left. -/
structure Tidy (c : Conn) : Prop where
  once : ∀ fd < c.opened, c.closed.count fd = if c.sendFileFd = some fd then 0 else 1
  clean : c.owed = 0 → Clean c
  gone : c.alive = false → Clean c
  single : ∀ fd < c.opened, ∀ fd' < c.opened, fd ∉ c.closed → fd' ∉ c.closed → fd = fd'

/-- How much `send` is given from the buffer. -/
def pendingLen (io : SendIo) (c : Conn) : Nat :=
  if c.sendBufPos = c.sendBufLen then min io.read CHUNK_SIZE else c.sendBufLen - c.sendBufPos

/-- The socket takes no more of a buffered file than `send_remaining`. -/
def Fits (io : SendIo) (c : Conn) : Prop :=
  c.sendFileFd ≠ none → c.useSendfile = false →
    ∀ n ∈ socketWrite true (pendingLen io c) io.write, n ≤ c.sendRemaining

/-- The file that is sent from its descriptor. -/
def sentFile (req : HttpRequest) (io : StaticIo) : Option File :=
  if req.method ≠ some (ascii "GET") then none
  else io.file.filter fun file =>
    !(isRange req file && !io.seeks) && io.built && (compressed req file io).isNone

/-- An empty file ends the connection, `send_buffer` can be allocated, and the first write
fits. -/
def Served (io : StaticIo) (c : Conn) : Prop :=
  ∀ file ∈ sentFile c.parser.req io,
    (file.size = 0 → httpShouldKeepAlive c.parser.req = false) ∧ io.allocated = true ∧
      Fits io.send (setBuffer (setFile c.opened (bodyOf c.parser.req file) c))

def Plain (c : Conn) : Event → Prop
  | .readable data io => c.alive = true → c.events = .read →
      0 < (httpParserFeed .default c.parser data).2 →
        Served io { c with parser := (httpParserFeed .default c.parser data).1 }
  | .writable io => Fits io c
  | .deleted => True

variable {c : Conn} {held : Option Nat} {fd n : Nat} {io : StaticIo} {req : HttpRequest} {file : File}

/-- All but the descriptor `held` have been closed. -/
structure Books (held : Option Nat) (c : Conn) : Prop where
  count : ∀ fd, c.closed.count fd = if fd < c.opened ∧ held ≠ some fd then 1 else 0
  known : ∀ fd ∈ held, fd < c.opened

theorem Books.open (h : Books none c) : Books (some c.opened) (openFile c) where
  count := fun fd => by
    rw [show (openFile c).closed = c.closed from rfl, h.count fd]
    change (if fd < c.opened ∧ none ≠ some fd then 1 else 0) =
      if fd < c.opened + 1 ∧ some c.opened ≠ some fd then 1 else 0
    simp only [ne_eq, reduceCtorEq, not_false_eq_true, and_true, Option.some.injEq]
    congr 1
    rw [eq_iff_iff]
    omega
  known := by
    rintro fd ⟨⟩
    exact Nat.lt_succ_self c.opened

theorem Books.close (h : Books (some fd) c) : Books none (closeFd fd c) where
  count := fun other => by
    have known := h.known fd rfl
    change (c.closed ++ [fd]).count other = if other < c.opened ∧ none ≠ some other then 1 else 0
    rw [List.count_append, h.count other, List.count_singleton]
    by_cases same : fd = other
    · subst same
      simp [known]
    · simp [same]
  known := by
    rintro fd ⟨⟩

theorem Books.cleanup (h : Books c.sendFileFd c) : Books none (cleanupSendState c) := by
  cases held : c.sendFileFd with
  | none =>
    rw [held] at h
    have same : (cleanupSendState c).closed = c.closed ∧ (cleanupSendState c).opened = c.opened := by
      simp [cleanupSendState, held]
    constructor
    · rw [same.1, same.2]
      exact h.count
    · rintro fd ⟨⟩
  | some fd =>
    rw [held] at h
    have closed := h.close
    have same : (cleanupSendState c).closed = (closeFd fd c).closed ∧
        (cleanupSendState c).opened = (closeFd fd c).opened := by
      simp [cleanupSendState, held, closeFd]
    constructor
    · rw [same.1, same.2]
      exact closed.count
    · rintro fd ⟨⟩

@[simp] theorem cleanup_sendFileFd (c : Conn) : (cleanupSendState c).sendFileFd = none := by
  unfold cleanupSendState
  cases held : c.sendFileFd with
  | none => exact held
  | some fd => rfl

theorem clean_cleanup (c : Conn) : Clean (cleanupSendState c) := by
  exact ⟨cleanup_sendFileFd c, rfl, rfl⟩

/-- A body of which something is left to be sent. -/
structure Transfer (c : Conn) : Prop where
  alive : c.alive = true
  sending : c.sendingBody = true
  counted : c.sendRemaining = c.owed
  unsent : c.owed ≠ 0
  bounded : c.owed < 2 ^ 64
  memory : c.sendFileFd = none → c.useSendfile = false ∧ c.sendBufPos + c.owed = c.sendBufLen

/-- Between two events the state is clean, or the connection waits to send more. -/
structure Settled (c : Conn) : Prop where
  books : Books c.sendFileFd c
  state : Clean c ∨ Transfer c ∧ c.events = .write

theorem settled_clean (books : Books none c) (clean : Clean c) : Settled c where
  books := clean.1.symm ▸ books
  state := Or.inl clean

theorem Settled.gone (h : Settled c) (gone : c.alive = false) : Clean c := by
  rcases h.state with clean | ⟨transfer, _⟩
  · exact clean
  · exact absurd (gone.symm.trans transfer.alive) Bool.false_ne_true

theorem settled_cleanup (books : Books c.sendFileFd c) : Settled (cleanupSendState c) :=
  settled_clean books.cleanup (clean_cleanup c)

theorem connDel_settled (books : Books c.sendFileFd c) (gone : c.alive = false → Clean c) :
    Settled (connDel c) := by
  unfold connDel
  split
  · rename_i dead
    rw [Bool.not_eq_true'] at dead
    exact ⟨books, Or.inl (gone dead)⟩
  · have settled := settled_cleanup books
    constructor
    · exact ⟨settled.books.count, settled.books.known⟩
    · exact Or.inl (clean_cleanup c)

theorem Settled.connDel (h : Settled c) : Settled (connDel c) := connDel_settled h.books h.gone

theorem Settled.resetParser (h : Settled c) : Settled (resetParser c) where
  books := ⟨h.books.count, h.books.known⟩
  state := h.state.imp id fun ⟨t, events⟩ =>
    ⟨⟨t.alive, t.sending, t.counted, t.unsent, t.bounded, t.memory⟩, events⟩

theorem keepOrDelete_settled (h : Settled c) : Settled (keepOrDelete c) := by
  unfold keepOrDelete
  split
  · exact h.resetParser
  · exact h.connDel

theorem finishSend_settled (books : Books c.sendFileFd c) : Settled (finishSend c) := by
  have settled := settled_cleanup books
  apply keepOrDelete_settled
  exact ⟨⟨settled.books.count, settled.books.known⟩, Or.inl (clean_cleanup c)⟩

theorem failed_settled (books : Books c.sendFileFd c) :
    Settled (StaticDescriptors.connDel (cleanupSendState c)) :=
  (settled_cleanup books).connDel

theorem account_settled (books : Books c.sendFileFd c) (alive : c.alive = true)
    (sending : c.sendingBody = true) (counted : c.sendRemaining = c.owed)
    (bounded : c.owed < 2 ^ 64) (le : n ≤ c.sendRemaining)
    (memory : c.sendFileFd = none →
      c.useSendfile = false ∧ c.sendBufPos + (c.owed - n) = c.sendBufLen) :
    Settled (account n c) := by
  have plain : usub c.sendRemaining n = c.owed - n := by
    unfold usub
    omega
  unfold account
  dsimp only
  rw [plain]
  split
  · exact finishSend_settled ⟨books.count, books.known⟩
  · rename_i more
    refine ⟨⟨books.count, books.known⟩, Or.inr ⟨⟨alive, sending, rfl, more, ?_, memory⟩, rfl⟩⟩
    exact (Nat.sub_le _ _).trans_lt bounded

theorem sendWithSendfile_settled (books : Books c.sendFileFd c) (h : Transfer c)
    (file : c.sendFileFd ≠ none) (r : WriteResult) : Settled (sendWithSendfile r c) := by
  unfold sendWithSendfile
  cases taken : r.taken c.sendRemaining with
  | none => exact failed_settled books
  | some n =>
    exact account_settled ⟨books.count, books.known⟩ h.alive h.sending h.counted h.bounded
      (WriteResult.taken_le taken) fun none => absurd none file

theorem sendBuffered_settled (books : Books c.sendFileFd c) (h : Transfer c) {r : WriteResult}
    (fits : c.sendFileFd ≠ none →
      ∀ n ∈ socketWrite true (c.sendBufLen - c.sendBufPos) r, n ≤ c.sendRemaining) :
    Settled (sendBuffered r c) := by
  unfold sendBuffered
  cases taken : socketWrite true (c.sendBufLen - c.sendBufPos) r with
  | none => exact failed_settled books
  | some n =>
    have within := socketWrite_le taken
    have counted := h.counted
    have le : n ≤ c.sendRemaining := by
      by_cases file : c.sendFileFd = none
      · have memory := (h.memory file).2
        omega
      · exact fits file n taken
    refine account_settled ⟨books.count, books.known⟩ h.alive h.sending counted h.bounded le ?_
    intro none
    obtain ⟨mode, total⟩ := h.memory none
    refine ⟨mode, ?_⟩
    dsimp only
    omega

theorem resumeSend_settled {io : SendIo} (books : Books c.sendFileFd c) (h : Transfer c)
    (fits : Fits io c) : Settled (resumeSend io c) := by
  have unsent := h.unsent
  have counted := h.counted
  unfold resumeSend
  rw [if_neg (by rw [h.alive]; exact Bool.false_ne_true),
    if_neg (by rw [h.sending, counted]; simpa using unsent)]
  split
  · rename_i sendfile
    refine sendWithSendfile_settled books h ?_ io.write
    intro none
    exact absurd ((h.memory none).1.symm.trans sendfile) Bool.false_ne_true
  rename_i mode
  rw [Bool.not_eq_true] at mode
  split
  · rename_i sent
    unfold refillAndSend
    split
    · rename_i memory
      have total := (h.memory memory).2
      omega
    · rename_i ours
      dsimp only
      split
      · exact settled_cleanup books
      · have fits := fits ours mode
        rw [pendingLen, if_pos sent] at fits
        have filled : Transfer { c with sendBufLen := min io.read CHUNK_SIZE, sendBufPos := 0 } :=
          ⟨h.alive, h.sending, counted, unsent, h.bounded, fun none => absurd none ours⟩
        apply sendBuffered_settled
        · exact ⟨books.count, books.known⟩
        · exact filled
        · exact fun _ => fits
  · rename_i more
    apply sendBuffered_settled books h
    intro ours
    have fits := fits ours mode
    rwa [pendingLen, if_neg more] at fits

theorem bodyOf_le (req : HttpRequest) (file : File) :
    (bodyOf req file).contentLen ≤ file.size :=
  (Nat.le_add_left _ _).trans (chosenBody_within _ _)

/-- Only the whole of an empty file is an empty body. -/
theorem bodyOf_empty (empty : (bodyOf req file).contentLen = 0) : file.size = 0 := by
  unfold bodyOf chosenBody at empty
  dsimp only at empty
  split at empty
  · dsimp only at empty
    omega
  · exact empty

/-- The response is still to be sent, is out, or is the empty one after which `http_dispatcher`
deletes the connection. -/
def Answered (keepAlive : Bool) (c : Conn) : Prop :=
  Settled c ∨ Books c.sendFileFd c ∧ c.alive = true ∧ c.sendRemaining = 0 ∧ keepAlive = false

theorem sendFile_answered (books : Books (some fd) c) (alive : c.alive = true) {b : Body}
    {io : StaticIo} (small : b.contentLen < 2 ^ 64) (allocated : io.allocated = true)
    {keepAlive : Bool} (empty : b.contentLen = 0 → keepAlive = false)
    (fits : Fits io.send (setBuffer (setFile fd b c))) : Answered keepAlive (sendFile fd b io c) := by
  have kept : Books (setBuffer (setFile fd b c)).sendFileFd (setBuffer (setFile fd b c)) :=
    ⟨books.count, books.known⟩
  unfold sendFile
  dsimp only
  rw [if_neg (by rw [allocated]; exact Bool.false_ne_true)]
  by_cases none : b.contentLen = 0
  · have same : resumeSend io.send (setBuffer (setFile fd b c)) = setBuffer (setFile fd b c) := by
      unfold resumeSend
      rw [if_neg (by rw [show (setBuffer (setFile fd b c)).alive = c.alive from rfl, alive]; simp),
        if_pos (by simp [setBuffer, setFile, none])]
    rw [same]
    exact Or.inr ⟨kept, alive, none, empty none⟩
  · exact Or.inl (resumeSend_settled kept
      ⟨alive, rfl, rfl, none, small, fun other => absurd other (Option.some_ne_none fd)⟩ fits)

theorem sendCompressed_settled (books : Books none c) (clean : Clean c) (alive : c.alive = true)
    {gz : Gzip} (small : gz.len < 2 ^ 64) (io : StaticIo) : Settled (sendCompressed gz io c) := by
  unfold sendCompressed
  split
  · exact settled_clean ⟨books.count, books.known⟩ clean
  · apply resumeSend_settled
    · exact ⟨books.count, books.known⟩
    · exact ⟨alive, rfl, rfl, gz.nonempty.ne', small, fun _ => ⟨rfl, Nat.zero_add _⟩⟩
    · exact fun file => absurd rfl file

theorem sendHead_settled (books : Books none c) (clean : Clean c) : Settled (sendHead c) := by
  have settled : Settled { c with owed := 0 } :=
    settled_clean ⟨books.count, books.known⟩ clean
  unfold sendHead
  dsimp only
  split
  · exact settled_clean ⟨books.count, books.known⟩ clean
  · exact settled.connDel

theorem httpError_settled (books : Books none c) (clean : Clean c) : Settled (httpError c) :=
  settled_clean ⟨books.count, books.known⟩ clean

theorem httpStaticDir_answered (books : Books none c) (clean : Clean c) (alive : c.alive = true)
    {io : StaticIo} (served : Served io c) :
    Answered (httpShouldKeepAlive c.parser.req) (httpStaticDir io c) := by
  unfold httpStaticDir
  dsimp only
  split
  · exact Or.inl (httpError_settled books clean)
  rename_i method
  cases opens : io.file with
  | none => exact Or.inl (httpError_settled books clean)
  | some file =>
    have books := books.open
    have error : Settled (httpError (closeFd c.opened (openFile c))) :=
      httpError_settled books.close clean
    dsimp only
    split
    · exact Or.inl error
    rename_i seeks
    split
    · exact Or.inl error
    rename_i built
    cases gzip : compressed c.parser.req file io with
    | some gz =>
      refine Or.inl (sendCompressed_settled books.close clean alive ?_ io)
      unfold compressed at gzip
      split at gzip
      · have smaller := (Option.filter_eq_some_iff.mp gzip).2
        have size := file.representable
        rw [decide_eq_true_eq] at smaller
        omega
      · cases gzip
    | none =>
      dsimp only
      split
      · exact Or.inl (sendHead_settled books.close clean)
      rename_i get
      have sent : file ∈ sentFile c.parser.req io := by
        have isGet : c.parser.req.method = some (ascii "GET") := by
          by_contra other
          exact method ⟨other, by simpa using get⟩
        rw [sentFile, if_neg (not_not.mpr isGet), opens, Option.mem_def, Option.filter_eq_some_iff]
        refine ⟨rfl, ?_⟩
        have seeks : (isRange c.parser.req file && !io.seeks) = false := by
          simpa using seeks
        have built : io.built = true := by
          simpa using built
        rw [gzip, seeks, built]
        rfl
      obtain ⟨empty, allocated, fits⟩ := served file sent
      refine sendFile_answered books alive ?_ allocated (fun zero => empty (bodyOf_empty zero)) fits
      have le := bodyOf_le c.parser.req file
      have size := file.representable
      omega

theorem persistOrClose_settled {keepAlive : Bool} (h : Answered keepAlive c) :
    Settled (persistOrClose keepAlive c) := by
  unfold persistOrClose
  rcases h with settled | ⟨books, alive, out, close⟩
  · split
    · exact settled.resetParser
    split
    · exact settled.connDel
    · exact settled
  · rw [close, if_neg Bool.false_ne_true, if_pos (by simp [out])]
    exact connDel_settled books fun gone => absurd (gone.symm.trans alive) Bool.false_ne_true

/-- While a transfer waits, nothing is read. -/
theorem Settled.reading (h : Settled c) (reading : c.events = .read) : Clean c := by
  rcases h.state with clean | ⟨_, writing⟩
  · exact clean
  · cases reading.symm.trans writing

theorem onData_settled (h : Settled c) (alive : c.alive = true) (reading : c.events = .read)
    {data : Bytes} {io : StaticIo} (plain : Plain c (.readable data io)) :
    Settled (onData data io c) := by
  have clean := h.reading reading
  have books : Books none c := clean.1 ▸ h.books
  have fed (parser : HttpParser) : Settled { c with parser := parser } :=
    settled_clean ⟨books.count, books.known⟩ clean
  unfold onData
  dsimp only
  split
  · exact (fed _).connDel
  rename_i accepted
  split
  · exact fed _
  · rename_i complete
    apply persistOrClose_settled
    apply httpStaticDir_answered
    · exact ⟨books.count, books.known⟩
    · exact clean
    · exact alive
    · apply plain alive reading
      omega

theorem settled_step (c : Conn) (e : Event) (h : Settled c) (plain : Plain c e) :
    Settled (step c e) := by
  cases e with
  | readable data io =>
    rw [step]
    split
    · rename_i awake
      exact onData_settled h awake.1 awake.2 plain
    · exact h
  | writable io =>
    rw [step]
    split
    · rcases h.state with clean | ⟨transfer, _⟩
      · have idle : resumeSend io c = c := by
          unfold resumeSend
          rw [clean.2.2]
          simp
        rw [idle]
        exact h
      · exact resumeSend_settled h.books transfer plain
    · exact h
  | deleted => exact h.connDel

theorem settled_connAdd (fd : Nat) (tls : Bool) : Settled (connAdd fd tls) where
  books := ⟨fun _ => rfl, by rintro fd ⟨⟩⟩
  state := Or.inl ⟨rfl, rfl, rfl⟩

theorem Settled.tidy (h : Settled c) : Tidy c where
  once := fun fd known => by
    rw [h.books.count fd]
    by_cases held : c.sendFileFd = some fd
    · rw [if_neg fun both => both.2 held, if_pos held]
    · rw [if_pos ⟨known, held⟩, if_neg held]
  clean := fun out => by
    rcases h.state with clean | ⟨transfer, _⟩
    · exact clean
    · exact absurd out transfer.unsent
  gone := h.gone
  single := by
    have unclosed {fd : Nat} (known : fd < c.opened) (listed : fd ∉ c.closed) :
        c.sendFileFd = some fd := by
      have count := h.books.count fd
      rw [List.count_eq_zero.mpr listed] at count
      by_contra free
      rw [if_pos ⟨known, free⟩] at count
      cases count
    intro fd known fd' known' listed listed'
    have same := (unclosed known listed).symm.trans (unclosed known' listed')
    exact Option.some.inj same

/-- Every descriptor is closed once, the state is clean when a response is out or the connection
gone, and no more than one descriptor is open. -/
theorem static_descriptors_closed (fd : Nat) (tls : Bool) (es : List Event)
    (plain : Guarded step Plain (connAdd fd tls) es) : Tidy (run step (connAdd fd tls) es) :=
  (run_invariant settled_step (settled_connAdd fd tls) plain).tidy

def getPage : Bytes := ascii "GET /page HTTP/1.1\r\n\r\n"

def page : File := ⟨100, ascii "image/png", by decide⟩

def empty : File := ⟨0, ascii "image/png", by decide⟩

/-- `sendfile` takes forty bytes at first. -/
def opening (file : File) : StaticIo := ⟨some file, true, true, none, true, true, ⟨0, .wrote 40⟩⟩

def twoSends : List Event := [.readable getPage (opening page), .writable ⟨0, .wrote 60⟩]

theorem static_descriptors_closed_sample :
    (run step (connAdd 5 false) twoSends).closed = [0] ∧
      Tidy (run step (connAdd 5 false) twoSends) := by
  refine ⟨by decide +kernel, static_descriptors_closed 5 false twoSends ⟨?_, ?_, trivial⟩⟩
  · intro _ _ _ file sent
    have page_sent : sentFile (httpParserFeed .default (httpParserInit 5) getPage).1.req
        (opening page) = some page := by decide +kernel
    cases (page_sent.symm.trans sent : some page = some file)
    refine ⟨fun none => absurd none (by decide), rfl, ?_⟩
    rintro _ ⟨⟩
  · intro _ buffered
    have sendfile : (step (connAdd 5 false) (.readable getPage (opening page))).useSendfile =
        true := by decide +kernel
    exact absurd (sendfile.symm.trans buffered) (by decide)

/-- After two requests for an empty file two descriptors are open. -/
theorem static_descriptors_leaked :
    ¬ ∀ (fd : Nat) (tls : Bool) (es : List Event), Tidy (run step (connAdd fd tls) es) := by
  intro tidy
  let es : List Event := [.readable getPage (opening empty), .readable getPage (opening empty)]
  have books : (run step (connAdd 5 false) es).opened = 2 ∧
      (run step (connAdd 5 false) es).closed = [] := by decide +kernel
  have unclosed (fd : Nat) : fd ∉ (run step (connAdd 5 false) es).closed := by
    rw [books.2]
    exact List.not_mem_nil
  have same := (tidy 5 false es).single 0 (by rw [books.1]; decide) 1 (by rw [books.1]; decide)
    (unclosed 0) (unclosed 1)
  cases same

end StaticDescriptors
