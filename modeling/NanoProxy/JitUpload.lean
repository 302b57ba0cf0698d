import NanoProxy.HeadRewriting
import NanoProxy.JitAuth
import NanoProxy.JitServer
import NanoProxy.Lib.Multipart

/-!
# Uploads to the JIT backend (jit_backend/api.cy)

`h_upload` looks for the boundary from the Content-Type, for the blank line behind it and for
the next boundary, and saves what is between if the head of the part says image or video. The
random names and what the file system does are given.
-/

namespace JitUpload

open CLib RequestDecoder JitAuth Multipart

/-- `find_bytes`, with a needle that is not empty. -/
def findBytes (hay needle : Bytes) (start : Nat) : Option Nat :=
  if start + needle.length ≤ hay.length then (strstr needle (hay.drop start)).map (start + ·)
  else none

def filenameOf (partHeaders : Bytes) : Bytes :=
  let key := ascii "filename=\""
  match strstr key partHeaders with
  | none => []
  | some i =>
    let fp := partHeaders.drop (i + key.length)
    let filename := fp.takeWhile (· != 34)
    if 34 ∈ fp ∧ filename.length < 256 then filename else []

def typeOf (partHeaders : Bytes) : Bytes :=
  let key := ascii "Content-Type:"
  let other := ascii "application/octet-stream"
  match strstr key partHeaders with
  | none => other
  | some i =>
    let ctp := (partHeaders.drop (i + key.length)).dropWhile (· == SP)
    let parttype := match strstr CRLF ctp with
      | some n => ctp.take n
      | none => ctp
    if 0 < parttype.length ∧ parttype.length < 128 then parttype else other

inductive Kind where
  | video
  | image
  deriving DecidableEq

def kindOf (parttype : Bytes) : Option Kind :=
  if ascii "video/" <+: parttype then some .video
  else if ascii "image/" <+: parttype then some .image
  else none

/-- From the last dot on. -/
def extension (filename : Bytes) : Bytes :=
  if 46 ∈ filename then 46 :: filename.rtakeWhile (· != 46) else ascii ".bin"

/-- The random name, whether the file opens, and what the writes take of the data. -/
structure Disk where
  unique : Salt
  opens : Bool
  written : List Nat

structure Saved where
  path : Bytes
  content : Bytes
  url : Bytes
  kind : Kind
  deriving DecidableEq

def usermediaDir : Bytes := ascii "jit_backend/usermedia"

/-- What becomes of the data of an image or a video. -/
def save (disk : Disk) (kind : Kind) (filename data : Bytes) : Option Saved :=
  let name := hexEncode disk.unique.1 ++ extension filename
  if disk.opens then
    some
      { path := (usermediaDir ++ 47 :: name).take 511
        content := (JitServer.sendAll disk.written data).1
        url := (ascii "/usermedia/" ++ name).take 127
        kind := kind }
  else none

/-- The file that comes of a part, and the number of names that were drawn. -/
def saveUploadPart (disks : Nat → Disk) (drawn : Nat) (partHeaders data : Bytes) :
    Option Saved × Nat :=
  match kindOf (typeOf partHeaders) with
  | none => (none, drawn)
  | some kind => (save (disks drawn) kind (filenameOf partHeaders) data, drawn + 1)

/-- The loop over the parts. Every round begins behind the last one, so that there are at most as
many rounds as bytes (`uploadLoop_fuel`). -/
def uploadLoop (body delim : Bytes) (disks : Nat → Disk) : Nat → Nat → Nat → List Saved
  | 0, _, _ => []
  | fuel + 1, drawn, pos =>
    let start := pos + delim.length
    if (body.drop start).take 2 = [45, 45] then []
    else
      let start := if (body.drop start).take 2 = CRLF then start + 2 else start
      match findBytes body (CRLF ++ CRLF) start with
      | none => []
      | some hdrEnd =>
        let dataStart := hdrEnd + 4
        let next := findBytes body delim dataStart
        let dataEnd := next.getD body.length
        let dataEnd := if dataStart ≤ dataEnd - 2 ∧ (body.drop (dataEnd - 2)).take 2 = CRLF
          then dataEnd - 2 else dataEnd
        let partHeaders := cstr ((slice body start hdrEnd).take 1023)
        let (item, drawn) := saveUploadPart disks drawn partHeaders (slice body dataStart dataEnd)
        item.toList ++ match next with
          | none => []
          | some next => uploadLoop body delim disks fuel drawn next

def boundaryAt : Bytes → Bytes
  | 34 :: bp => if 34 ∈ bp then (bp.takeWhile (· != 34)).take 255 else []
  | bp => (bp.take 255).takeWhile fun b => b != CR && b != LF && b != SEMI

/-- The boundary of a Content-Type. -/
def boundaryOf (contentType : Bytes) : Option Bytes :=
  let key := ascii "boundary="
  (strstr key contentType).map fun i => boundaryAt (contentType.drop (i + key.length))

/-- `h_upload`: the error, or the files. -/
def hUpload (uid : Int) (contentType : Option Bytes) (body : Bytes) (disks : Nat → Disk) :
    Except Response (List Saved) :=
  if uid = 0 then .error unauthenticated
  else if contentType.getD [] = [] then .error (errResp 400 "Bad Request" "missing Content-Type")
  else
    match boundaryOf (contentType.getD []) with
    | none => .error (errResp 400 "Bad Request" "missing multipart boundary")
    | some boundary =>
      let delim := ascii "--" ++ boundary
      match findBytes body delim 0 with
      | none => .ok []
      | some pos => .ok (uploadLoop body delim disks (body.length + 1) 0 pos)

theorem findBytes_eq {hay needle : Bytes} (nonempty : needle ≠ []) (start : Nat) :
    findBytes hay needle start = (strstr needle (hay.drop start)).map (start + ·) := by
  unfold findBytes
  split
  · rfl
  · rename_i short
    cases found : strstr needle (hay.drop start) with
    | none => rfl
    | some n =>
      have inside := ResponseHead.strstr_le found
      have positive := List.length_pos_of_ne_nil nonempty
      rw [List.length_drop] at inside
      omega

theorem findBytes_le {hay needle : Bytes} {start n : Nat} (nonempty : needle ≠ [])
    (found : findBytes hay needle start = some n) :
    start ≤ n ∧ n + needle.length ≤ hay.length := by
  rw [findBytes_eq nonempty] at found
  obtain ⟨k, at_k, rfl⟩ := Option.map_eq_some_iff.mp found
  have inside := ResponseHead.strstr_le at_k
  have positive := List.length_pos_of_ne_nil nonempty
  rw [List.length_drop] at inside
  omega

theorem findBytes_at {needle back : Bytes} (nonempty : needle ≠ []) (front : Bytes) {n : Nat}
    (found : strstr needle back = some n) :
    findBytes (front ++ back) needle front.length = some (front.length + n) := by
  rw [findBytes_eq nonempty, List.drop_left, found, Option.map_some]

theorem strstr_first {needle front back : Bytes} (nonempty : needle ≠ [])
    (first : First needle front (needle ++ back)) :
    strstr needle (front ++ (needle ++ back)) = some front.length := by
  induction front with
  | nil =>
    obtain ⟨b, t, rfl⟩ := List.exists_cons_of_ne_nil nonempty
    exact if_pos (List.prefix_append _ _)
  | cons b front ih =>
    have other : ¬needle <+: b :: (front ++ (needle ++ back)) := fun here =>
      absurd (first 0 here) (Nat.not_succ_le_zero _)
    have later : First needle front (needle ++ back) := fun n starts =>
      Nat.le_of_succ_le_succ (first (n + 1) starts)
    rw [List.cons_append, strstr, if_neg other, ih later]
    rfl

theorem strstr_missing {needle s : Bytes} (absent : ¬needle <:+: s) : strstr needle s = none := by
  cases found : strstr needle s with
  | none => rfl
  | some n =>
    have here := ResponseEnd.strstr_found found
    exact absurd (here.isInfix.trans (List.drop_suffix n s).isInfix) absent

theorem uploadLoop_fuel {body delim : Bytes} (nonempty : delim ≠ []) (disks : Nat → Disk)
    {fuel : Nat} (more drawn : Nat) {pos : Nat} (inside : pos ≤ body.length)
    (enough : body.length < pos + fuel) :
    uploadLoop body delim disks (fuel + more) drawn pos =
      uploadLoop body delim disks fuel drawn pos := by
  induction fuel generalizing drawn pos with
  | zero => omega
  | succ fuel ih =>
    rw [Nat.add_right_comm, uploadLoop, uploadLoop]
    simp only
    split
    · rfl
    split
    · rfl
    · rename_i hdrEnd ended
      generalize saveUploadPart disks drawn _ _ = saved
      congr 1
      cases next : findBytes body delim (hdrEnd + 4) with
      | none => rfl
      | some next =>
        have blank := (findBytes_le (by decide) ended).1
        have behind := findBytes_le nonempty next
        refine ih saved.2 (by omega) ?_
        split at blank <;> omega

/-- What the loop needs of a part, to find its two ends. -/
structure Clean (delim : Bytes) (p : Part) : Prop where
  blank : ∀ rest, strstr (CRLF ++ CRLF) (p.head ++ (CRLF ++ CRLF ++ rest)) = some p.head.length
  short : p.head.length < 1024
  no_nul : 0 ∉ p.head
  absent : ¬delim <:+: p.content

theorem slice_between (a b c : Bytes) :
    slice (a ++ (b ++ c)) a.length (a.length + b.length) = b := by
  rw [slice, ← List.append_assoc, ← List.length_append, List.take_left, List.drop_left]

/-- A round, from where its parts are found. -/
theorem uploadLoop_round {body delim : Bytes} {pos hdrEnd dataEnd : Nat}
    (opened : (body.drop (pos + delim.length)).take 2 = CRLF)
    (first : findBytes body (CRLF ++ CRLF) (pos + delim.length + 2) = some hdrEnd)
    (next : findBytes body delim (hdrEnd + 4) = some (dataEnd + 2))
    (ended : (body.drop dataEnd).take 2 = CRLF) (order : hdrEnd + 4 ≤ dataEnd)
    (disks : Nat → Disk) (fuel drawn : Nat) :
    let saved := saveUploadPart disks drawn
      (cstr ((slice body (pos + delim.length + 2) hdrEnd).take 1023))
      (slice body (hdrEnd + 4) dataEnd)
    uploadLoop body delim disks (fuel + 1) drawn pos =
      saved.1.toList ++ uploadLoop body delim disks fuel saved.2 (dataEnd + 2) := by
  intro saved
  have not_closing : CRLF ≠ [45, 45] := by decide
  rw [uploadLoop]
  simp only [opened, if_neg not_closing, if_true, first, next, Option.getD_some,
    Nat.add_sub_cancel, ended, order, and_self]
  rfl

theorem uploadLoop_part {delim : Bytes} {p : Part} (nonempty : delim ≠ []) (plain : CR ∉ delim)
    (plain' : LF ∉ delim) (clean : Clean delim p) (front rest : Bytes) {whole : Bytes}
    (is : whole = front ++ (delim ++ (p.text ++ (delim ++ rest)))) (disks : Nat → Disk)
    (fuel drawn : Nat) :
    let saved := saveUploadPart disks drawn p.head p.content
    uploadLoop whole delim disks (fuel + 1) drawn front.length =
      saved.1.toList ++
        uploadLoop whole delim disks fuel saved.2 (front ++ (delim ++ p.text)).length := by
  let headed := front ++ (delim ++ CRLF)
  let filled := headed ++ (p.head ++ (CRLF ++ CRLF))
  let next := delim ++ rest
  -- the whole body, cut at the head, at the content and at its end
  have at_head : whole = headed ++ (p.head ++ (CRLF ++ CRLF ++ (p.content ++ CRLF ++ next))) := by
    simp [is, headed, next, Part.text, lineEnd, blankLine, CRLF, CR, LF]
  have at_content : whole = filled ++ (p.content ++ (CRLF ++ next)) := by
    rw [at_head]
    simp only [filled, List.append_assoc]
  have at_end : whole = filled ++ p.content ++ (CRLF ++ next) := by
    rw [at_content, ← List.append_assoc]
  have start : front.length + delim.length + 2 = headed.length := by
    simp [headed, CRLF]
    omega
  have behind_head : headed.length + p.head.length + 4 = filled.length := by
    simp [filled, CRLF]
    omega
  have behind_text : (front ++ (delim ++ p.text)).length =
      filled.length + p.content.length + 2 := by
    simp [filled, headed, Part.text, lineEnd, blankLine, CRLF]
    omega
  have opened : (whole.drop (front.length + delim.length)).take 2 = CRLF := by
    rw [is, ← List.append_assoc, ← List.length_append, List.drop_left, Part.text,
      List.append_assoc]
    rfl
  have first : findBytes whole (CRLF ++ CRLF) (front.length + delim.length + 2) =
      some (headed.length + p.head.length) := by
    rw [start, at_head]
    exact findBytes_at (by decide) headed (clean.blank _)
  have second : findBytes whole delim (headed.length + p.head.length + 4) =
      some (filled.length + p.content.length + 2) := by
    have found : strstr delim (p.content ++ CRLF ++ next) = some (p.content ++ CRLF).length :=
      strstr_first nonempty (first_delimiter plain plain' clean.absent (delim ++ rest))
    rw [behind_head, at_content, ← List.append_assoc p.content,
      findBytes_at nonempty filled found, @List.length_append _ p.content CRLF]
    rfl
  have ended : (whole.drop (filled.length + p.content.length)).take 2 = CRLF := by
    rw [at_end, ← List.length_append, List.drop_left]
    rfl
  have head_between : cstr ((slice whole (front.length + delim.length + 2)
      (headed.length + p.head.length)).take 1023) = p.head := by
    rw [start, at_head, slice_between, List.take_of_length_le (Nat.le_of_lt_succ clean.short)]
    exact RequestGrammar.cstr_eq_self clean.no_nul
  have content_between : slice whole (headed.length + p.head.length + 4)
      (filled.length + p.content.length) = p.content := by
    rw [behind_head, at_content, slice_between]
  have round := uploadLoop_round opened first second ended
    (behind_head ▸ Nat.le_add_right _ _) disks fuel drawn
  rw [head_between, content_between] at round
  rw [behind_text]
  exact round

def savedParts (disks : Nat → Disk) : Nat → List Part → List Saved
  | _, [] => []
  | drawn, p :: parts =>
    let saved := saveUploadPart disks drawn p.head p.content
    saved.1.toList ++ savedParts disks saved.2 parts

/-- The whole run, part by part, up to the closing delimiter. -/
theorem uploadLoop_body {delim : Bytes} {parts : List Part} (nonempty : delim ≠ [])
    (plain : CR ∉ delim) (plain' : LF ∉ delim) (clean : ∀ p ∈ parts, Clean delim p)
    (front epilogue : Bytes) (disks : Nat → Disk) {fuel : Nat} (enough : parts.length < fuel)
    (drawn : Nat) :
    uploadLoop (front ++ body delim epilogue parts) delim disks fuel drawn front.length =
      savedParts disks drawn parts := by
  induction parts generalizing front fuel drawn with
  | nil =>
    obtain ⟨fuel, rfl⟩ := Nat.exists_eq_add_of_lt enough
    have closing : ((front ++ body delim epilogue []).drop (front.length + delim.length)).take 2 =
        [45, 45] := by
      rw [body, ← List.append_assoc, ← List.length_append, List.drop_left]
      rfl
    rw [uploadLoop]
    simp only [closing, if_true]
    rfl
  | cons p parts ih =>
    obtain ⟨fuel, rfl⟩ := Nat.exists_eq_succ_of_ne_zero (Nat.ne_zero_of_lt enough)
    obtain ⟨here, others⟩ := List.forall_mem_cons.mp clean
    have split : front ++ body delim epilogue (p :: parts) =
        front ++ (delim ++ p.text) ++ body delim epilogue parts := by
      simp only [body, behind, List.append_assoc]
    have is : front ++ body delim epilogue (p :: parts) =
        front ++ (delim ++ (p.text ++ (delim ++ behind delim epilogue parts))) := rfl
    rw [uploadLoop_part nonempty plain plain' here front _ is, split,
      ih others _ (Nat.lt_of_succ_lt_succ enough)]
    rfl

/-- A field of a form, with the name and the type of the file if it is one. -/
structure Field where
  name : Bytes
  file : Option (Bytes × Bytes)
  content : Bytes

/-- What stands in quotes, as a browser writes it. -/
structure Quoted (s : Bytes) : Prop where
  no_quote : 34 ∉ s
  no_cr : CR ∉ s
  no_nul : 0 ∉ s
  unmarked : ¬ascii "Content-Type:" <:+: s

structure MediaType (type : Bytes) : Prop where
  no_cr : CR ∉ type
  no_nul : 0 ∉ type
  no_space : type.head? ≠ some SP
  positive : 0 < type.length
  short : type.length < 128

def disposition (name : Bytes) : Bytes :=
  ascii "Content-Disposition: form-data; name=" ++ 34 :: (name ++ [34])

def fileLine (name filename : Bytes) : Bytes :=
  disposition name ++ ascii "; filename=" ++ 34 :: (filename ++ [34])

def Field.head (f : Field) : Bytes :=
  match f.file with
  | none => disposition f.name
  | some (filename, type) => fileLine f.name filename ++ CRLF ++ (ascii "Content-Type: " ++ type)

def Field.part (f : Field) : Part := ⟨f.head, f.content⟩

section Head

variable {name filename type : Bytes}

theorem key_split {a r : Bytes} (inside : ascii "Content-Type:" <:+: a ++ 34 :: r) :
    ascii "Content-Type:" <:+: a ∨ ascii "Content-Type:" <:+: r :=
  infix_split (by decide) inside

theorem disposition_unmarked (h : Quoted name) :
    ¬ascii "Content-Type:" <:+: disposition name := by
  intro inside
  rcases key_split inside with front | back
  · exact absurd front (by decide)
  · rcases key_split back with middle | last
    · exact h.unmarked middle
    · exact absurd last (by decide)

theorem fileLine_unmarked (h : Quoted name) (h' : Quoted filename) :
    ¬ascii "Content-Type:" <:+: fileLine name filename ++ CRLF := by
  intro inside
  have split : fileLine name filename ++ CRLF =
      ascii "Content-Disposition: form-data; name=" ++ 34 :: (name ++ 34 ::
        (ascii "; filename=" ++ 34 :: (filename ++ 34 :: CRLF))) := by
    simp [fileLine, disposition]
  rw [split] at inside
  rcases key_split inside with front | back
  · exact absurd front (by decide)
  rcases key_split back with own | back
  · exact h.unmarked own
  rcases key_split back with middle | back
  · exact absurd middle (by decide)
  rcases key_split back with own | last
  · exact h'.unmarked own
  · exact absurd last (by decide)

/-- Without a file, there is no type. -/
theorem typeOf_disposition (h : Quoted name) :
    typeOf (disposition name) = ascii "application/octet-stream" := by
  rw [typeOf, strstr_missing (disposition_unmarked h)]

theorem typeOf_file (h : Quoted name) (h' : Quoted filename) (media : MediaType type) :
    typeOf (fileLine name filename ++ CRLF ++ (ascii "Content-Type: " ++ type)) = type := by
  have fresh : First (ascii "Content-Type:") (fileLine name filename ++ CRLF)
      (ascii "Content-Type:" ++ SP :: type) :=
    first_fresh (by decide) (fileLine_unmarked h h') _
  have found := strstr_first (by decide) fresh
  have no_break : strstr CRLF type = none := by
    refine strstr_missing fun inside => media.no_cr (inside.subset ?_)
    exact List.mem_cons_self
  have trimmed : (SP :: type).dropWhile (· == SP) = type := by
    rw [List.dropWhile_cons_of_pos rfl]
    cases type with
    | nil => rfl
    | cons b type =>
      refine List.dropWhile_cons_of_neg ?_
      rw [beq_iff_eq]
      rintro rfl
      exact media.no_space rfl
  have whole : fileLine name filename ++ CRLF ++ (ascii "Content-Type: " ++ type) =
      fileLine name filename ++ CRLF ++ (ascii "Content-Type:" ++ SP :: type) := rfl
  rw [whole, typeOf, found]
  simp only
  rw [← List.length_append, ← List.append_assoc, List.drop_left, trimmed, no_break]
  exact if_pos ⟨media.positive, media.short⟩

theorem filenameOf_file (h : Quoted name) (unnamed : ¬ascii "filename=" <:+ name)
    (h' : Quoted filename) (short : filename.length < 256) (rest : Bytes) :
    filenameOf (fileLine name filename ++ rest) = filename := by
  have split : fileLine name filename ++ rest =
      ascii "Content-Disposition: form-data; name=" ++ 34 :: (name ++ 34 ::
        (ascii "; filename=" ++ 34 :: (filename ++ 34 :: rest))) := by
    simp [fileLine, disposition]
  have found : strstr (ascii "filename=\"") (fileLine name filename ++ rest) =
      some (disposition name ++ ascii "; ").length := by
    change strstr (ascii "filename=" ++ [34]) _ = _
    rw [split, JitForms.strstr_mark (by decide) (by decide), if_neg (by decide),
      JitForms.strstr_mark (by decide) h.no_quote, if_neg unnamed,
      JitForms.strstr_mark (by decide) (by decide), if_pos (by decide)]
    simp [disposition, ascii]
    omega
  have whole : fileLine name filename ++ rest =
      disposition name ++ ascii "; " ++ ascii "filename=\"" ++ (filename ++ 34 :: rest) := by
    simp [fileLine, ascii]
  have quoted : (filename ++ 34 :: rest).takeWhile (· != 34) = filename := by
    rw [List.takeWhile_append_of_pos fun b listed => ?_, List.takeWhile_cons_of_neg (by simp),
      List.append_nil]
    rw [bne_iff_ne]
    rintro rfl
    exact h'.no_quote listed
  rw [filenameOf, found]
  simp only
  rw [whole, ← List.length_append, List.drop_left, quoted]
  exact if_pos ⟨List.mem_append_right _ List.mem_cons_self, short⟩

end Head

/-- What a field needs to come through the upload as it is. -/
structure Field.Plain (delim : Bytes) (f : Field) : Prop where
  absent : ¬delim <:+: f.content
  name : Quoted f.name
  unnamed : ¬ascii "filename=" <:+ f.name
  filename : ∀ file ∈ f.file, Quoted file.1 ∧ file.1.length < 256
  type : ∀ file ∈ f.file, MediaType file.2
  short : f.head.length < 1024

theorem noCrlf_of_not_mem {line : Bytes} (plain : CR ∉ line) : HeadRewriting.NoCrlf line :=
  fun inside => plain (inside.subset List.mem_cons_self)

theorem disposition_not_mem {c : UInt8} {name : Bytes} (h : c ∉ name) (quote : c ≠ 34)
    (plain : c ∉ ascii "Content-Disposition: form-data; name=") : c ∉ disposition name := by
  simp only [disposition, List.mem_append, List.mem_cons, List.not_mem_nil, or_false, not_or]
  exact ⟨plain, quote, h, quote⟩

theorem fileLine_not_mem {c : UInt8} {name filename : Bytes} (h : c ∉ name) (h' : c ∉ filename)
    (quote : c ≠ 34) (plain : c ∉ ascii "Content-Disposition: form-data; name=")
    (plain' : c ∉ ascii "; filename=") : c ∉ fileLine name filename := by
  simp only [fileLine, List.mem_append, List.mem_cons, List.not_mem_nil, or_false, not_or]
  exact ⟨⟨disposition_not_mem h quote plain, plain'⟩, quote, h', quote⟩

theorem blank_found {line head : Bytes} {lines : List Bytes}
    (same : HeadRewriting.linesText (line :: lines) = head ++ CRLF)
    (plain : HeadRewriting.NoCrlf line) (each : ∀ l ∈ lines, l ≠ [] ∧ HeadRewriting.NoCrlf l)
    (rest : Bytes) :
    strstr (CRLF ++ CRLF) (head ++ (CRLF ++ CRLF ++ rest)) = some head.length := by
  have found := HeadRewriting.strstr_head plain each
  rw [same, List.length_append] at found
  have longer := ResponseHead.strstr_append found rest
  rw [List.append_assoc, List.append_assoc] at longer
  exact longer

theorem Field.Plain.clean {delim : Bytes} {f : Field} (h : f.Plain delim) : Clean delim f.part := by
  obtain ⟨name, file, content⟩ := f
  cases file with
  | none =>
    have text : HeadRewriting.linesText [disposition name] = disposition name ++ CRLF := by
      simp [HeadRewriting.linesText]
    have plain := disposition_not_mem h.name.no_cr (by decide) (by decide)
    have no_nul := disposition_not_mem h.name.no_nul (by decide) (by decide)
    exact ⟨blank_found text (noCrlf_of_not_mem plain) (List.forall_mem_nil _), h.short, no_nul,
      h.absent⟩
  | some file =>
    have quoted := (h.filename file rfl).1
    have media := h.type file rfl
    have text : HeadRewriting.linesText [fileLine name file.1, ascii "Content-Type: " ++ file.2] =
        fileLine name file.1 ++ CRLF ++ (ascii "Content-Type: " ++ file.2) ++ CRLF := by
      simp [HeadRewriting.linesText]
    have plain := fileLine_not_mem h.name.no_cr quoted.no_cr (by decide) (by decide) (by decide)
    have plain' : CR ∉ ascii "Content-Type: " ++ file.2 :=
      List.not_mem_append (by decide) media.no_cr
    have no_nul := fileLine_not_mem h.name.no_nul quoted.no_nul (by decide) (by decide) (by decide)
    have no_nul' : 0 ∉ ascii "Content-Type: " ++ file.2 :=
      List.not_mem_append (by decide) media.no_nul
    refine ⟨blank_found text (noCrlf_of_not_mem plain) ?_, h.short, ?_, h.absent⟩
    · rw [List.forall_mem_singleton]
      exact ⟨List.append_ne_nil_of_left_ne_nil (by decide) _, noCrlf_of_not_mem plain'⟩
    · exact List.not_mem_append (List.not_mem_append no_nul (by decide)) no_nul'

/-- The kind of a field that is an image or a video, its file name and its content. -/
def Field.media (f : Field) : Option (Kind × Bytes × Bytes) :=
  f.file.bind fun file => (kindOf file.2).map (·, file.1, f.content)

/-- The file of such a field, where the disk works. -/
def stored (unique : Salt) (media : Kind × Bytes × Bytes) : Saved :=
  let name := hexEncode unique.1 ++ extension media.2.1
  { path := usermediaDir ++ 47 :: name
    content := media.2.2
    url := (ascii "/usermedia/" ++ name).take 127
    kind := media.1 }

structure Disk.Works (disk : Disk) : Prop where
  opens : disk.opens = true
  written : ∀ n ∈ disk.written, 0 < n

theorem extension_length {filename : Bytes} (short : filename.length < 256) :
    (extension filename).length ≤ 256 := by
  unfold extension
  split
  · have part := (List.rtakeWhile_suffix (· != 46) filename).length_le
    rw [List.length_cons]
    omega
  · decide

/-- No path is cut off. -/
theorem path_length {filename : Bytes} (short : filename.length < 256) (unique : Salt) :
    (usermediaDir ++ 47 :: (hexEncode unique.1 ++ extension filename)).length ≤ 511 := by
  have name : (hexEncode unique.1).length = 32 := by rw [hexEncode_length, unique.2]
  have dir : usermediaDir.length = 21 := rfl
  have ext := extension_length short
  rw [List.length_append, List.length_cons, List.length_append, name, dir]
  omega

theorem save_works {disk : Disk} (works : disk.Works) (kind : Kind) {filename : Bytes}
    (short : filename.length < 256) (data : Bytes) :
    save disk kind filename data = some (stored disk.unique (kind, filename, data)) := by
  simp only [save, works.opens, if_true, JitServer.sendAll_whole works.written data,
    List.take_of_length_le (path_length short disk.unique)]
  rfl

theorem saveUploadPart_field {delim : Bytes} {disks : Nat → Disk} (works : ∀ k, (disks k).Works)
    {f : Field} (h : f.Plain delim) (drawn : Nat) :
    saveUploadPart disks drawn f.head f.content =
      match f.media with
      | none => (none, drawn)
      | some media => (some (stored (disks drawn).unique media), drawn + 1) := by
  obtain ⟨name, file, content⟩ := f
  cases file with
  | none =>
    have other : kindOf (typeOf (disposition name)) = none := by
      rw [typeOf_disposition h.name]
      decide
    change saveUploadPart disks drawn (disposition name) content = _
    rw [saveUploadPart, other]
    rfl
  | some file =>
    obtain ⟨quoted, short⟩ := h.filename file rfl
    have media := h.type file rfl
    have named := filenameOf_file h.name h.unnamed quoted short
      (CRLF ++ (ascii "Content-Type: " ++ file.2))
    rw [← List.append_assoc] at named
    change saveUploadPart disks drawn
      (fileLine name file.1 ++ CRLF ++ (ascii "Content-Type: " ++ file.2)) content = _
    rw [saveUploadPart, typeOf_file h.name quoted media, named]
    cases kind : kindOf file.2 with
    | none => simp [Field.media, kind]
    | some kind' => simp [Field.media, kind, save_works (works drawn) kind' short]

theorem savedParts_fields {delim : Bytes} {disks : Nat → Disk} (works : ∀ k, (disks k).Works)
    {fields : List Field} (plain : ∀ f ∈ fields, f.Plain delim) (drawn : Nat) :
    savedParts disks drawn (fields.map Field.part) =
      ((fields.filterMap Field.media).zipIdx drawn).map fun m => stored (disks m.2).unique m.1 := by
  induction fields generalizing drawn with
  | nil => rfl
  | cons f fields ih =>
    obtain ⟨here, others⟩ := List.forall_mem_cons.mp plain
    have saved := saveUploadPart_field works here drawn
    rw [List.map_cons, savedParts]
    change (saveUploadPart disks drawn f.head f.content).1.toList ++
      savedParts disks (saveUploadPart disks drawn f.head f.content).2 _ = _
    rw [saved]
    cases media : f.media with
    | none =>
      rw [List.filterMap_cons_none media]
      exact ih others drawn
    | some m =>
      rw [List.filterMap_cons_some media, List.zipIdx_cons, List.map_cons]
      simp only [ih others]
      rfl

structure Boundary (boundary : Bytes) : Prop where
  no_cr : CR ∉ boundary
  no_lf : LF ∉ boundary
  no_semi : SEMI ∉ boundary
  unquoted : boundary.head? ≠ some 34
  short : boundary.length < 256

theorem boundaryAt_plain {boundary : Bytes} (h : Boundary boundary) :
    boundaryAt boundary = boundary := by
  have whole : (boundary.take 255).takeWhile (fun b => b != CR && b != LF && b != SEMI) =
      boundary := by
    rw [List.take_of_length_le (Nat.le_of_lt_succ h.short), List.takeWhile_eq_self_iff]
    intro b listed
    simp only [Bool.and_eq_true, bne_iff_ne]
    refine ⟨⟨?_, ?_⟩, ?_⟩ <;> rintro rfl
    · exact h.no_cr listed
    · exact h.no_lf listed
    · exact h.no_semi listed
  unfold boundaryAt
  split
  · exact absurd rfl h.unquoted
  · exact whole

theorem boundaryOf_form {boundary : Bytes} (h : Boundary boundary) :
    boundaryOf (ascii "multipart/form-data; boundary=" ++ boundary) = some boundary := by
  have key : ascii "boundary=" = ascii "boundary" ++ [61] := by decide
  have line : ascii "multipart/form-data; boundary=" =
      ascii "multipart/form-data; boundary" ++ [61] := by decide
  have at_21 : (ascii "multipart/form-data; boundary").length - (ascii "boundary").length +
      (ascii "boundary" ++ [61]).length = (ascii "multipart/form-data; boundary=").length := by
    decide
  have found : strstr (ascii "boundary" ++ [61])
      (ascii "multipart/form-data; boundary=" ++ boundary) =
        some ((ascii "multipart/form-data; boundary").length - (ascii "boundary").length) := by
    rw [line, List.append_assoc, List.singleton_append,
      JitForms.strstr_mark (by decide) (by decide), if_pos (by decide)]
  unfold boundaryOf
  simp only [key, found, Option.map_some, at_21, List.drop_left]
  rw [boundaryAt_plain h]

/-- The body of a form is not shorter than its fields are many. -/
theorem length_body (delim epilogue : Bytes) (parts : List Part) :
    parts.length < (body delim epilogue parts).length := by
  induction parts with
  | nil => simp [body, behind]
  | cons p parts ih =>
    have split : body delim epilogue (p :: parts) = delim ++ (p.text ++ body delim epilogue parts) :=
      rfl
    have text : 0 < p.text.length := by simp [Part.text, lineEnd]
    rw [split, List.length_append, List.length_append, List.length_cons]
    omega

/-- An upload stores the images and the videos of a form, in their order, each with its content. -/
theorem form_stored {uid : Int} (known : uid ≠ 0) {boundary : Bytes} (bounds : Boundary boundary)
    {fields : List Field} (plain : ∀ f ∈ fields, f.Plain (ascii "--" ++ boundary))
    (epilogue : Bytes) {disks : Nat → Disk} (works : ∀ k, (disks k).Works) :
    hUpload uid (some (ascii "multipart/form-data; boundary=" ++ boundary))
        (body (ascii "--" ++ boundary) epilogue (fields.map Field.part)) disks =
      .ok ((fields.filterMap Field.media).zipIdx.map fun m => stored (disks m.2).unique m.1) := by
  have typed : ascii "multipart/form-data; boundary=" ++ boundary ≠ [] :=
    List.append_ne_nil_of_left_ne_nil (by decide) _
  have nonempty : ascii "--" ++ boundary ≠ [] := List.append_ne_nil_of_left_ne_nil (by decide) _
  have no_cr : CR ∉ ascii "--" ++ boundary := List.not_mem_append (by decide) bounds.no_cr
  have no_lf : LF ∉ ascii "--" ++ boundary := List.not_mem_append (by decide) bounds.no_lf
  have clean : ∀ p ∈ fields.map Field.part, Clean (ascii "--" ++ boundary) p :=
    List.forall_mem_map.mpr fun f listed => (plain f listed).clean
  have boundary_read := boundaryOf_form bounds
  generalize ascii "multipart/form-data; boundary=" ++ boundary = contentType at *
  have first : findBytes (body (ascii "--" ++ boundary) epilogue (fields.map Field.part))
      (ascii "--" ++ boundary) 0 = some 0 := by
    have here : strstr (ascii "--" ++ boundary)
        (body (ascii "--" ++ boundary) epilogue (fields.map Field.part)) = some 0 :=
      @strstr_first _ [] _ nonempty fun n _ => Nat.zero_le n
    rw [findBytes_eq nonempty, List.drop_zero, here, Option.map_some]
  have enough := (length_body (ascii "--" ++ boundary) epilogue (fields.map Field.part)).trans
    (Nat.lt_succ_self _)
  have run := uploadLoop_body nonempty no_cr no_lf clean [] epilogue disks enough 0
  rw [savedParts_fields works plain] at run
  simp only [hUpload, known, if_false, Option.getD_some, typed, boundary_read, first]
  exact congrArg Except.ok run

def sampleDisk : Disk := { unique := sampleSalt, opens := true, written := [1] }

def sampleFields : List Field :=
  [{ name := ascii "text", file := none, content := ascii "--" },
    { name := ascii "media", file := some (ascii "a.b.png", ascii "image/png"),
      content := [0, 45, 45, 13, 10] }]

theorem form_stored_sample :
    hUpload 1 (some (ascii "multipart/form-data; boundary=" ++ ascii "ab"))
        (body (ascii "--" ++ ascii "ab") CRLF (sampleFields.map Field.part)) (fun _ => sampleDisk) =
      .ok [stored sampleSalt (.image, ascii "a.b.png", [0, 45, 45, 13, 10])] := by
  have bounds : Boundary (ascii "ab") := ⟨by decide, by decide, by decide, by decide, by decide⟩
  have quoted : ∀ s ∈ [ascii "text", ascii "media", ascii "a.b.png"], Quoted s := by
    have plain : ∀ s ∈ [ascii "text", ascii "media", ascii "a.b.png"],
        34 ∉ s ∧ CR ∉ s ∧ 0 ∉ s ∧ ¬ascii "Content-Type:" <:+: s := by decide
    intro s listed
    obtain ⟨no_quote, no_cr, no_nul, unmarked⟩ := plain s listed
    exact ⟨no_quote, no_cr, no_nul, unmarked⟩
  have text : (sampleFields[0]).Plain (ascii "--" ++ ascii "ab") := by
    refine ⟨by decide, quoted _ (by decide), by decide, nofun, nofun, by decide⟩
  have media : (sampleFields[1]).Plain (ascii "--" ++ ascii "ab") := by
    refine ⟨by decide, quoted _ (by decide), by decide, ?_, ?_, by decide⟩
    · rintro _ ⟨⟩
      exact ⟨quoted _ (by decide), by decide⟩
    · rintro _ ⟨⟩
      exact ⟨by decide, by decide, by decide, by decide, by decide⟩
  have plain : ∀ f ∈ sampleFields, f.Plain (ascii "--" ++ ascii "ab") :=
    List.forall_mem_cons.mpr ⟨text, List.forall_mem_singleton.mpr media⟩
  exact form_stored (by decide) bounds plain CRLF fun _ => ⟨rfl, by decide⟩

/-- A file with the name number `k`: one dot, behind the digits, and data from the body. -/
structure Named (disks : Nat → Disk) (body : Bytes) (k : Nat) (f : Saved) : Prop where
  path : ∃ ext, 46 ∉ ext ∧
    f.path = usermediaDir ++ 47 :: (hexEncode (disks k).unique.1 ++ 46 :: ext)
  content : f.content <:+: body

section Names

variable {body delim : Bytes} {disks : Nat → Disk}

theorem filenameOf_length (partHeaders : Bytes) : (filenameOf partHeaders).length < 256 := by
  unfold filenameOf
  simp only
  split
  · decide
  · split
    · rename_i fits
      exact fits.2
    · decide

theorem extension_dot (filename : Bytes) : ∃ ext, 46 ∉ ext ∧ extension filename = 46 :: ext := by
  unfold extension
  split
  · refine ⟨_, fun inside => ?_, rfl⟩
    exact absurd (List.mem_rtakeWhile_imp inside) (by decide)
  · exact ⟨ascii "bin", by decide, by decide⟩

theorem sendAll_starts (outs : List Nat) (msg : Bytes) : (JitServer.sendAll outs msg).1 <+: msg := by
  induction outs generalizing msg with
  | nil => cases msg <;> exact List.prefix_refl _
  | cons n outs ih =>
    cases msg with
    | nil => exact List.prefix_refl _
    | cons b msg =>
      cases n with
      | zero => exact List.nil_prefix
      | succ n =>
        have behind := ih ((b :: msg).drop (n + 1))
        have both := (List.prefix_append_right_inj ((b :: msg).take (n + 1))).mpr behind
        rw [List.take_append_drop] at both
        exact both

theorem slice_infix (buf : Bytes) (a b : Nat) : slice buf a b <:+: buf :=
  (List.drop_suffix a _).isInfix.trans (List.take_prefix b buf).isInfix

/-- A part uses up a name just when something may be written under it. -/
theorem saveUploadPart_cases (drawn : Nat) (partHeaders : Bytes) {data : Bytes}
    (part : data <:+: body) :
    let saved := saveUploadPart disks drawn partHeaders data
    (saved.1 = none ∧ drawn ≤ saved.2 ∧ saved.2 ≤ drawn + 1) ∨
      ∃ f, saved = (some f, drawn + 1) ∧ Named disks body drawn f := by
  intro saved
  cases kind : kindOf (typeOf partHeaders) with
  | none =>
    have is : saved = (none, drawn) := by simp only [saved, saveUploadPart, kind]
    rw [is]
    exact .inl ⟨rfl, Nat.le_refl drawn, Nat.le_succ drawn⟩
  | some kind' =>
    have is : saved =
        (save (disks drawn) kind' (filenameOf partHeaders) data, drawn + 1) := by
      simp only [saved, saveUploadPart, kind]
    by_cases opens : (disks drawn).opens
    · obtain ⟨ext, single, named⟩ := extension_dot (filenameOf partHeaders)
      have uncut := path_length (filenameOf_length partHeaders) (disks drawn).unique
      refine .inr ⟨_, is.trans (by rw [save, if_pos opens]), ?_, ?_⟩
      · refine ⟨ext, single, ?_⟩
        rw [← named]
        exact List.take_of_length_le uncut
      · exact (sendAll_starts _ data).isInfix.trans part
    · rw [is, save, if_neg opens]
      exact .inl ⟨rfl, Nat.le_succ drawn, Nat.le_refl _⟩

/-- What a round stores, and with what the loop goes on. -/
theorem uploadLoop_step (fuel drawn pos : Nat) :
    uploadLoop body delim disks (fuel + 1) drawn pos = [] ∨
      ∃ partHeaders data rest, data <:+: body ∧
        uploadLoop body delim disks (fuel + 1) drawn pos =
          (saveUploadPart disks drawn partHeaders data).1.toList ++ rest ∧
        (rest = [] ∨ ∃ next, rest = uploadLoop body delim disks fuel
          (saveUploadPart disks drawn partHeaders data).2 next) := by
  rw [uploadLoop]
  simp only
  split
  · exact .inl rfl
  split
  · exact .inl rfl
  · refine .inr ⟨_, _, _, slice_infix body _ _, rfl, ?_⟩
    split
    · exact .inl rfl
    · exact .inr ⟨_, rfl⟩

/-- The files of a run have rising numbers, one for each round at most. -/
theorem uploadLoop_named (fuel drawn pos : Nat) :
    ∃ ks, ks.Pairwise (· < ·) ∧ (∀ k ∈ ks, drawn ≤ k ∧ k < drawn + fuel) ∧
      List.Forall₂ (Named disks body) ks (uploadLoop body delim disks fuel drawn pos) := by
  have nothing (n fuel : Nat) : ∃ ks, ks.Pairwise (· < ·) ∧ (∀ k ∈ ks, n ≤ k ∧ k < n + fuel) ∧
      List.Forall₂ (Named disks body) ks [] :=
    ⟨[], List.Pairwise.nil, List.forall_mem_nil _, .nil⟩
  induction fuel generalizing drawn pos with
  | zero => exact nothing drawn 0
  | succ fuel ih =>
    rcases uploadLoop_step fuel drawn pos with is | ⟨partHeaders, data, rest, part, is, goes_on⟩
    · rw [is]
      exact nothing drawn (fuel + 1)
    have later {n : Nat} (at_n : (saveUploadPart disks drawn partHeaders data).2 = n) :
        ∃ ks, ks.Pairwise (· < ·) ∧ (∀ k ∈ ks, n ≤ k ∧ k < n + fuel) ∧
          List.Forall₂ (Named disks body) ks rest := by
      rcases goes_on with rfl | ⟨next, rfl⟩
      · exact nothing n fuel
      · rw [at_n]
        exact ih n next
    rw [is]
    rcases saveUploadPart_cases drawn partHeaders part with
      ⟨unsaved, least, most⟩ | ⟨f, saved, named⟩
    · obtain ⟨ks, rising, bounds, each⟩ := later rfl
      rw [unsaved]
      refine ⟨ks, rising, fun k listed => ?_, each⟩
      obtain ⟨low, high⟩ := bounds k listed
      exact ⟨least.trans low, by omega⟩
    · obtain ⟨ks, rising, bounds, each⟩ := later (congrArg Prod.snd saved)
      rw [saved]
      refine ⟨drawn :: ks, rising.cons fun k listed => (bounds k listed).1, ?_, .cons named each⟩
      rw [List.forall_mem_cons]
      refine ⟨by omega, fun k listed => ?_⟩
      obtain ⟨low, high⟩ := bounds k listed
      omega

theorem Named.unique {j k : Nat} {f g : Saved} (h : Named disks body j f)
    (h' : Named disks body k g) (same : f.path = g.path) :
    (disks j).unique = (disks k).unique := by
  obtain ⟨ext, _, at_j⟩ := h.path
  obtain ⟨ext', _, at_k⟩ := h'.path
  rw [at_j, at_k] at same
  have names := (List.cons.inj (List.append_cancel_left same)).2
  have length (n : Nat) : (hexEncode (disks n).unique.1).length = 32 := by
    rw [hexEncode_length, (disks n).unique.2]
  have digits := (List.append_inj names ((length j).trans (length k).symm)).1
  exact Subtype.ext (hexEncode_inj digits)

theorem Named.numbered {ks : List Nat} {files : List Saved}
    (each : List.Forall₂ (Named disks body) ks files) :
    ∀ f ∈ files, ∃ k ∈ ks, Named disks body k f := by
  induction each with
  | nil => exact List.forall_mem_nil _
  | cons here _ ih =>
    rw [List.forall_mem_cons]
    refine ⟨⟨_, List.mem_cons_self, here⟩, fun f listed => ?_⟩
    obtain ⟨k, inside, named⟩ := ih f listed
    exact ⟨k, List.mem_cons_of_mem _ inside, named⟩

theorem Named.apart {ks : List Nat} {files : List Saved} (rising : ks.Pairwise (· < ·))
    (each : List.Forall₂ (Named disks body) ks files) {numbers : Set Nat}
    (inside : ∀ k ∈ ks, k ∈ numbers)
    (distinct : Set.InjOn (fun k => (disks k).unique) numbers) :
    files.Pairwise fun f g => f.path ≠ g.path := by
  induction each with
  | nil => exact .nil
  | cons here others ih =>
    obtain ⟨least, rising⟩ := List.pairwise_cons.mp rising
    obtain ⟨first, inside⟩ := List.forall_mem_cons.mp inside
    refine .cons (fun g listed same => ?_) (ih rising inside)
    obtain ⟨k, behind, named⟩ := Named.numbered others g listed
    exact (least k behind).ne (distinct first (inside k behind) (here.unique named same))

end Names

/-- An upload that is not refused has run the loop, if the delimiter was found at all. -/
theorem hUpload_ok {uid : Int} {contentType : Option Bytes} {body : Bytes} {disks : Nat → Disk}
    {files : List Saved} (run : hUpload uid contentType body disks = .ok files) :
    files = [] ∨
      ∃ delim pos, files = uploadLoop body delim disks (body.length + 1) 0 pos := by
  unfold hUpload at run
  split at run
  · cases run
  split at run
  · cases run
  split at run
  · cases run
  simp only at run
  split at run
  · cases run
    exact .inl rfl
  · cases run
    exact .inr ⟨_, _, rfl⟩

/-- Whatever the body is: every file is written below the directory, under a name with only one
dot, and holds a piece of the body; no file of an upload is written over by another one, if the
names that are drawn differ. -/
theorem stored_apart {uid : Int} {contentType : Option Bytes} {body : Bytes} {disks : Nat → Disk}
    {files : List Saved} (run : hUpload uid contentType body disks = .ok files) :
    (∀ f ∈ files, ∃ k, Named disks body k f) ∧
      (Set.InjOn (fun k => (disks k).unique) (Set.Iic body.length) →
        files.Pairwise fun f g => f.path ≠ g.path) := by
  have named : ∃ ks, ks.Pairwise (· < ·) ∧ (∀ k ∈ ks, k ≤ body.length) ∧
      List.Forall₂ (Named disks body) ks files := by
    rcases hUpload_ok run with rfl | ⟨delim, pos, rfl⟩
    · exact ⟨[], .nil, List.forall_mem_nil _, .nil⟩
    · obtain ⟨ks, rising, bounds, each⟩ := uploadLoop_named (body.length + 1) 0 pos
      refine ⟨ks, rising, fun k listed => ?_, each⟩
      obtain ⟨_, high⟩ := bounds k listed
      omega
  obtain ⟨ks, rising, bounds, each⟩ := named
  refine ⟨fun f listed => ?_, Named.apart rising each bounds⟩
  obtain ⟨k, _, is⟩ := Named.numbered each f listed
  exact ⟨k, is⟩

def sampleDisks (k : Nat) : Disk :=
  { unique := ⟨UInt8.ofNat k :: List.replicate 15 0, rfl⟩, opens := true, written := [1] }

def sampleBody : Bytes :=
  ascii "--a\r\nContent-Type: video/x\r\n\r\n12\r\n--a\r\nContent-Type: image/y\r\n\r\n3\r\n--a--"

def sampleFiles : List Saved :=
  [stored (sampleDisks 0).unique (.video, [], ascii "12"),
    stored (sampleDisks 1).unique (.image, [], ascii "3")]

theorem stored_apart_sample :
    hUpload 1 (some (ascii "multipart/form-data; boundary=\"a\"")) sampleBody sampleDisks =
        .ok sampleFiles ∧
      (∃ k, Named sampleDisks sampleBody k (sampleFiles[1])) ∧
      (sampleFiles[0]).path ≠ (sampleFiles[1]).path := by
  have run : hUpload 1 (some (ascii "multipart/form-data; boundary=\"a\"")) sampleBody
      sampleDisks = .ok sampleFiles := by
    rfl
  have distinct : Set.InjOn (fun k => (sampleDisks k).unique) (Set.Iic sampleBody.length) := by
    intro j small k small' same
    have short : sampleBody.length < 256 := by decide
    have first := (List.cons.inj (congrArg Subtype.val same)).1
    have equal := congrArg UInt8.toNat first
    rw [Set.mem_Iic] at small small'
    rw [UInt8.toNat_ofNat_of_lt' (by change j < 256; omega),
      UInt8.toNat_ofNat_of_lt' (by change k < 256; omega)] at equal
    exact equal
  obtain ⟨named, apart⟩ := stored_apart run
  have differ := List.pairwise_iff_getElem.mp (apart distinct) 0 1 (by decide) (by decide)
    (by decide)
  exact ⟨run, named _ (List.getElem_mem _), differ⟩

end JitUpload
