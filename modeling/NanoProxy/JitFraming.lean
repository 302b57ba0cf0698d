import NanoProxy.OutboundRequest

/-!
# Request framing of the JIT backend (jit_backend/app.cy)

The backend finds the length of a body by searching the header block for a text,
wherever it stands. The proxy writes its own `Content-Length` behind everything that
its client chose.
-/

namespace JitFraming

open CLib StringBuffer HttpRequestParser RequestDecoder RequestGrammar
open RequestCodec AcceptedRequest OutboundRequest

def key : Bytes := ascii "content-length:"

/-- The value of a `long` after an operation that may overflow. -/
def wrapLong (v : Int) : Int := Int.bmod v (2 ^ 64)

/-- The digits behind the key. -/
def readNumber (t : Bytes) : Int :=
  ((t.dropWhile (· == SP)).takeWhile isdigit).foldl
    (fun v b => wrapLong (v * 10 + (b.toNat - 48 : Nat))) 0

/-- The outer loop of `content_length_of`: the first position at which the key stands. -/
def scan : Bytes → Option Int
  | [] => none
  | b :: t =>
    if lower ((b :: t).take 15) = key then some (readNumber ((b :: t).drop 15)) else scan t

/-- `content_length_of` on the bytes before `header_end`. -/
def contentLengthOf (block : Bytes) : Int := (scan block).getD 0

/-- `header_end` of `http_handle_client`, on a buffer that ends with a NUL. -/
def headerEnd (buf : Bytes) : Option Nat := (strstr (CRLF ++ CRLF) (cstr buf)).map (· + 4)

theorem wrapLong_step (a d : Int) : wrapLong (wrapLong a * 10 + d) = wrapLong (a * 10 + d) := by
  unfold wrapLong
  rw [← Int.bmod_add_bmod, Int.bmod_mul_bmod, Int.bmod_add_bmod]

theorem wrapLong_small {n : Nat} (h : n < 2 ^ 63) : wrapLong n = n := by
  unfold wrapLong
  exact Int.bmod_eq_of_le (by omega) (by omega)

theorem foldl_wraps (ds : Bytes) (hd : ∀ b ∈ ds, isdigit b = true) (acc : Nat) :
    ds.foldl (fun v b => wrapLong (v * 10 + (b.toNat - 48 : Nat))) (wrapLong acc) =
      wrapLong (ds.foldl (fun a b => a * 10 + digitVal b) acc : Nat) := by
  induction ds generalizing acc with
  | nil => rw [List.foldl_nil, List.foldl_nil]
  | cons d ds ih =>
    have hval : digitVal d = d.toNat - 48 := by rw [digitVal, if_pos (hd d List.mem_cons_self)]
    rw [List.foldl_cons, List.foldl_cons, wrapLong_step, ← hval]
    exact_mod_cast ih (fun b hb => hd b (List.mem_cons_of_mem d hb)) (acc * 10 + digitVal d)

theorem readNumber_eq (t : Bytes) : readNumber t =
    wrapLong (ofDigits 10 ((t.dropWhile (· == SP)).takeWhile isdigit)) := by
  have h := foldl_wraps _ (fun b (hb : b ∈ (t.dropWhile (· == SP)).takeWhile isdigit) =>
    List.mem_takeWhile_imp hb) 0
  rwa [wrapLong_small (by decide)] at h

/-- A number does not reach behind the end of its line. -/
theorem readNumber_line (t r : Bytes) : readNumber (t ++ CR :: r) = readNumber t := by
  unfold readNumber
  congr 1
  induction t with
  | nil => simp [show (CR == SP) = false by decide, show isdigit CR = false by decide]
  | cons b t ih =>
    by_cases hb : b = SP
    · simpa [hb] using ih
    · rw [List.cons_append, List.dropWhile_cons_of_neg (by simpa using hb),
        List.dropWhile_cons_of_neg (by simpa using hb), ← List.cons_append, List.takeWhile_append]
      split
      · rename_i hall
        rw [show (CR :: r).takeWhile isdigit = [] by
          rw [List.takeWhile_cons_of_neg (by decide)], List.append_nil]
        exact ((List.takeWhile_prefix _).eq_of_length hall).symm
      · rfl

theorem key_length : key.length = 15 := by decide

/-- A match lies within one line. -/
theorem match_line {t r : Bytes} : lower ((t ++ CR :: r).take 15) = key ↔ lower (t.take 15) = key := by
  by_cases hlen : 15 ≤ t.length
  · rw [List.take_append_of_le_length hlen]
  · constructor
    · intro h
      have hcr : CR ∈ (t ++ CR :: r).take 15 := by
        rw [List.mem_take_iff_getElem]
        refine ⟨t.length, by simp; omega, by simp⟩
      have : CR ∈ key := by
        rw [← h]
        exact List.mem_map.mpr ⟨CR, hcr, by decide⟩
      exact absurd this (by decide)
    · intro h
      have := congrArg List.length h
      rw [lower, List.length_map, List.length_take, key_length] at this
      omega

theorem scan_skip {b : UInt8} (t : Bytes) (h : tolower b ≠ 99) : scan (b :: t) = scan t := by
  rw [scan, if_neg]
  intro hkey
  have hhead := congrArg List.head? hkey
  exact h (by simpa [lower, key, ascii] using hhead)

/-- The search of one line, then of what follows it. -/
theorem scan_line (line r : Bytes) : scan (line ++ CRLF ++ r) = (scan line).or (scan r) := by
  induction line with
  | nil =>
    change scan (CR :: LF :: r) = _
    rw [scan_skip _ (by decide), scan_skip _ (by decide)]
    rfl
  | cons b t ih =>
    have hsplit : b :: t ++ CRLF ++ r = (b :: t) ++ CR :: (LF :: r) := by simp [CRLF]
    by_cases hm : lower ((b :: t).take 15) = key
    · have hlen : 15 ≤ (b :: t).length := by
        have := congrArg List.length hm
        rw [lower, List.length_map, List.length_take, key_length] at this
        omega
      rw [hsplit, List.cons_append, scan, ← List.cons_append, if_pos (match_line.mpr hm),
        List.drop_append_of_le_length hlen, readNumber_line, scan, if_pos hm]
      rfl
    · have hm' : ¬ lower ((b :: t ++ CR :: (LF :: r)).take 15) = key := fun h => hm (match_line.mp h)
      have htail : t ++ CR :: (LF :: r) = t ++ CRLF ++ r := by simp [CRLF]
      rw [hsplit, List.cons_append, scan, ← List.cons_append, if_neg hm', htail, ih, scan, if_neg hm]

theorem scan_lines (lines : List Bytes) (r : Bytes) :
    scan (lines.flatMap (· ++ CRLF) ++ r) = (lines.findSome? scan).or (scan r) := by
  induction lines with
  | nil => rfl
  | cons line lines ih =>
    rw [List.flatMap_cons, List.append_assoc, scan_line, ih, List.findSome?_cons]
    cases scan line <;> rfl

theorem strstr_skip {t : Bytes} (line : Bytes) (hlf : LF ∉ line) (ht : t.head? ≠ some LF) :
    strstr (CRLF ++ CRLF) (line ++ t) = (strstr (CRLF ++ CRLF) t).map (line.length + ·) := by
  induction line with
  | nil => simp
  | cons b line ih =>
    have hrest : LF ∉ line := fun h => hlf (List.mem_cons_of_mem b h)
    have hno : ¬ CRLF ++ CRLF <+: b :: (line ++ t) := by
      rintro ⟨r, hr⟩
      have hsecond : (line ++ t).head? = some LF := by
        have := congrArg (fun l => l.tail.head?) hr
        simpa [CRLF] using this.symm
      cases line with
      | nil => exact ht hsecond
      | cons c line => exact hrest (by simp_all)
    rw [List.cons_append, strstr, if_neg hno, ih hrest, Option.map_map]
    congr 1
    funext n
    simp only [Function.comp_apply, List.length_cons]
    omega

/-- The blank line is the first place where a line ends twice. -/
theorem strstr_block {line : Bytes} (lines : List Bytes) (r : Bytes) (hlf : LF ∉ line)
    (hlines : ∀ l ∈ lines, l ≠ [] ∧ LF ∉ l) :
    strstr (CRLF ++ CRLF) ((line :: lines).flatMap (· ++ CRLF) ++ CRLF ++ r) =
      some (((line :: lines).flatMap (· ++ CRLF)).length - 2) := by
  have hend : ∀ x : Bytes, (CRLF ++ x).head? ≠ some LF := by
    intro x
    simp [CRLF, CR, LF]
  induction lines generalizing line with
  | nil =>
    have hsplit : [line].flatMap (· ++ CRLF) ++ CRLF ++ r = line ++ (CRLF ++ (CRLF ++ r)) := by simp
    rw [hsplit, strstr_skip line hlf (hend _)]
    change (strstr (CRLF ++ CRLF) (CR :: (LF :: CR :: LF :: r))).map _ = _
    rw [strstr, if_pos ⟨r, rfl⟩]
    simp [CRLF]
  | cons next lines ih =>
    obtain ⟨hne, hnlf⟩ := hlines next List.mem_cons_self
    have hsplit : (line :: next :: lines).flatMap (· ++ CRLF) ++ CRLF ++ r =
        line ++ (CRLF ++ ((next :: lines).flatMap (· ++ CRLF) ++ CRLF ++ r)) := by simp
    set tail := (next :: lines).flatMap (· ++ CRLF) ++ CRLF ++ r with htail
    -- the next line would have to be empty
    have hno : ¬ CRLF ++ CRLF <+: CR :: (LF :: tail) := by
      rintro ⟨x, hx⟩
      have hstart : CR :: LF :: x = tail := by simpa [CRLF] using hx
      obtain ⟨c, rest, rfl⟩ := List.exists_cons_of_ne_nil hne
      rw [htail] at hstart
      cases rest with
      | nil => simp [CRLF, CR, LF] at hstart
      | cons d rest =>
        have hd : LF = d := by simpa using congrArg (fun l => l.tail.head?) hstart
        exact hnlf (by simp [hd])
    have hno' : ¬ CRLF ++ CRLF <+: LF :: tail := by
      rintro ⟨x, hx⟩
      exact absurd (List.cons.inj hx).1 (by decide)
    rw [hsplit, strstr_skip line hlf (hend _)]
    change (strstr (CRLF ++ CRLF) (CR :: (LF :: tail))).map _ = _
    rw [strstr, if_neg hno, strstr, if_neg hno', ih hnlf fun l hl => hlines l (List.mem_cons_of_mem _ hl)]
    have hlen : 2 ≤ ((next :: lines).flatMap (· ++ CRLF)).length := by
      simp only [List.flatMap_cons, List.length_append, CRLF, List.length_cons, List.length_nil]
      omega
    have htotal : ((line :: next :: lines).flatMap (· ++ CRLF)).length =
        line.length + 2 + ((next :: lines).flatMap (· ++ CRLF)).length := by
      rw [List.flatMap_cons, List.length_append, List.length_append]
      rfl
    rw [htotal]
    simp only [Option.map_some, Option.some.injEq]
    omega

/-- The lines that the proxy writes before its own framing. -/
def forwardedLines (req : HttpRequest) (up : Upstream) (cd : Client) : List Bytes :=
  requestLineText (formatString req.method) (formatString req.uri) (ascii "HTTP/1.1") ::
    (passedOn req ++ [(ascii "Host", up.host ++ ascii ":" ++ decimal up.port),
      (ascii "Connection", connectionValue req up)] ++ identity req cd ++
      [(ascii "X-Forwarded-Proto", ascii (if cd.tls then "https" else "http"))]).map
        fun h => headerLineText h.1 h.2

def framingLines (body : Bytes) : List Bytes := (framing body).map fun h => headerLineText h.1 h.2

theorem headerLines_eq (hs : Headers) :
    headerLines hs = (hs.map fun h => headerLineText h.1 h.2).flatMap (· ++ CRLF) := by
  simp [headerLines, List.flatMap_map]

theorem outboundHeadText_lines (req : HttpRequest) (up : Upstream) (cd : Client) :
    outboundHeadText req up cd =
      (forwardedLines req up cd ++ framingLines req.body).flatMap (· ++ CRLF) ++ CRLF := by
  rw [outboundHeadText, head, outboundHeaders, headerLines_append, headerLines_eq, headerLines_eq]
  simp only [forwardedLines, framingLines, List.cons_append, List.flatMap_cons,
    List.flatMap_append, List.append_assoc]

theorem scan_framing {body : Bytes} (hbody : body.length < STRINGBUF_MAX_CAP) :
    scan ((framingLines body).flatMap (· ++ CRLF) ++ CRLF) =
      if body = [] then none else some (body.length : Int) := by
  unfold framingLines framing
  by_cases hnil : body = []
  · rw [if_pos hnil, if_pos hnil]
    decide
  · rw [if_neg hnil, if_neg hnil]
    have hline : headerLineText (ascii "Content-Length") (decimal body.length) =
        ascii "Content-Length:" ++ (SP :: decimal body.length) := by
      have hname : ascii "Content-Length:" = ascii "Content-Length" ++ [COLON] := by decide
      simp [headerLineText, hname]
    have hmatch : lower ((ascii "Content-Length:" ++ (SP :: decimal body.length)).take 15) = key := by
      rw [List.take_append_of_le_length (by decide)]
      decide
    have hscan : scan (headerLineText (ascii "Content-Length") (decimal body.length)) =
        some (body.length : Int) := by
      have hcons : ascii "Content-Length:" ++ (SP :: decimal body.length) =
          67 :: (ascii "ontent-Length:" ++ (SP :: decimal body.length)) := by
        rfl
      rw [hline, hcons, scan, ← hcons, if_pos hmatch, List.drop_append_of_le_length (by decide)]
      have hdrop : (ascii "Content-Length:").drop 15 = [] := by decide
      obtain ⟨d, ds, hds⟩ := List.exists_cons_of_ne_nil (decimal_ne_nil body.length)
      have hd : (d == SP) = false := by
        have := decimal_digits (n := body.length) (b := d) (by rw [hds]; exact List.mem_cons_self)
        rw [beq_eq_false_iff_ne]
        rintro rfl
        revert this
        decide
      have hskip : (SP :: decimal body.length).dropWhile (· == SP) = decimal body.length := by
        rw [List.dropWhile_cons_of_pos (by decide), hds, List.dropWhile_cons_of_neg (by simp [hd])]
      have hall : (decimal body.length).takeWhile isdigit = decimal body.length := by
        rw [List.takeWhile_eq_self_iff]
        exact fun b hb => decimal_digits hb
      have hmax : STRINGBUF_MAX_CAP < 2 ^ 63 := by decide
      rw [hdrop, List.nil_append, readNumber_eq, hskip, hall, ofDigits_decimal,
        wrapLong_small (by omega)]
    rw [scan_lines, List.map_cons, List.findSome?_cons, hscan]
    rfl

/-- The key stands somewhere in the line, in any case. -/
def Mentions (line : Bytes) : Prop :=
  ∃ before mention after, line = before ++ mention ++ after ∧ lower mention = key

/-- The digits behind the first mention, as a `long`. -/
def Spells (line : Bytes) (n : Int) : Prop :=
  ∃ before mention after, line = before ++ mention ++ after ∧ lower mention = key ∧
    ¬ Mentions (before ++ mention.dropLast) ∧
    wrapLong (ofDigits 10 ((after.dropWhile (· == SP)).takeWhile isdigit)) = n

theorem length_of_lower_key {m : Bytes} (h : lower m = key) : m.length = 15 := by
  have := congrArg List.length h
  rwa [lower, List.length_map, key_length] at this

theorem take_of_prefix {a l : Bytes} (h : a <+: l) (hn : 15 ≤ a.length) : l.take 15 = a.take 15 := by
  obtain ⟨r, rfl⟩ := h
  exact List.take_append_of_le_length hn

theorem dropLast_begins (a m r : Bytes) : a ++ m.dropLast <+: a ++ m ++ r := by
  rw [List.append_assoc]
  exact (List.prefix_append_right_inj a).mpr (( List.dropLast_prefix m).trans (List.prefix_append m r))

theorem mentions_cons (b : UInt8) (t : Bytes) :
    Mentions (b :: t) ↔ lower ((b :: t).take 15) = key ∨ Mentions t := by
  constructor
  · rintro ⟨before, mention, after, hline, hkey⟩
    cases before with
    | nil =>
      refine Or.inl ?_
      rw [hline, List.nil_append, List.take_left' (length_of_lower_key hkey)]
      exact hkey
    | cons c before =>
      rw [List.cons_append, List.cons_append] at hline
      exact Or.inr ⟨before, mention, after, (List.cons.inj hline).2, hkey⟩
  · rintro (hkey | ⟨before, mention, after, rfl, hkey⟩)
    · exact ⟨[], (b :: t).take 15, (b :: t).drop 15, (List.take_append_drop 15 (b :: t)).symm, hkey⟩
    · exact ⟨b :: before, mention, after, by simp, hkey⟩

theorem scan_eq_none_iff (line : Bytes) : scan line = none ↔ ¬ Mentions line := by
  induction line with
  | nil =>
    refine ⟨fun _ => ?_, fun _ => rfl⟩
    rintro ⟨before, mention, after, hline, hkey⟩
    have hlen := length_of_lower_key hkey
    have hnil := congrArg List.length hline
    simp only [List.length_nil, List.length_append] at hnil
    omega
  | cons b t ih =>
    rw [scan, mentions_cons, not_or]
    split
    · rename_i hkey
      exact ⟨fun h => absurd h (by simp), fun h => absurd hkey h.1⟩
    · rename_i hkey
      rw [ih]
      exact ⟨fun h => ⟨hkey, h⟩, fun h => h.2⟩

theorem scan_eq_some_iff (line : Bytes) (n : Int) : scan line = some n ↔ Spells line n := by
  induction line with
  | nil =>
    refine ⟨fun h => (by cases h), ?_⟩
    rintro ⟨before, mention, after, hline, hkey, -⟩
    exact absurd ⟨before, mention, after, hline, hkey⟩ ((scan_eq_none_iff []).mp rfl)
  | cons b t ih =>
    rw [scan]
    by_cases hkey : lower ((b :: t).take 15) = key
    · rw [if_pos hkey, Option.some.injEq, readNumber_eq]
      constructor
      · intro hn
        refine ⟨[], (b :: t).take 15, (b :: t).drop 15, (List.take_append_drop 15 (b :: t)).symm,
          hkey, ?_, hn⟩
        rintro ⟨before, mention, after, hline, hm⟩
        have hlen := congrArg List.length hline
        have h15 := length_of_lower_key hkey
        have h15' := length_of_lower_key hm
        simp only [List.nil_append, List.length_append, List.length_dropLast, h15] at hlen
        omega
      · rintro ⟨before, mention, after, hline, hm, hfirst, hn⟩
        have h15 := length_of_lower_key hm
        cases before with
        | nil =>
          rw [hline, List.nil_append, List.drop_left' h15]
          exact hn
        | cons c before =>
          -- the match at the head would be an earlier mention
          refine absurd ?_ hfirst
          have hlong : 15 ≤ (c :: before ++ mention.dropLast).length := by
            simp only [List.length_append, List.length_cons, List.length_dropLast, h15]
            omega
          rw [hline, take_of_prefix (dropLast_begins (c :: before) mention after) hlong] at hkey
          rw [List.cons_append, mentions_cons]
          exact Or.inl hkey
    · rw [if_neg hkey, ih]
      constructor
      · rintro ⟨before, mention, after, rfl, hm, hfirst, hn⟩
        refine ⟨b :: before, mention, after, by simp, hm, ?_, hn⟩
        rw [List.cons_append, mentions_cons]
        rintro (hhead | hrest)
        · have hlong : 15 ≤ (b :: before ++ mention.dropLast).length := by
            have := length_of_lower_key hhead
            rw [List.length_take] at this
            rw [List.cons_append]
            omega
          have hprefix := dropLast_begins (b :: before) mention after
          refine hkey ?_
          rw [← List.cons_append, ← List.cons_append, take_of_prefix hprefix hlong]
          exact hhead
        · exact hfirst hrest
      · rintro ⟨before, mention, after, hline, hm, hfirst, hn⟩
        cases before with
        | nil =>
          rw [hline, List.nil_append, List.take_left' (length_of_lower_key hm)] at hkey
          exact absurd hm hkey
        | cons c before =>
          rw [List.cons_append, List.cons_append] at hline
          obtain ⟨rfl, rfl⟩ := List.cons.inj hline
          refine ⟨before, mention, after, rfl, hm, ?_, hn⟩
          intro hrest
          rw [List.cons_append, mentions_cons] at hfirst
          exact hfirst (Or.inr hrest)

/-- The first line that mentions the key, if any, spells `n` behind it. -/
def Agrees (lines : List Bytes) (n : Nat) : Prop :=
  (∀ line ∈ lines, ¬ Mentions line) ∨
    ∃ pre line post, lines = pre ++ line :: post ∧ (∀ l ∈ pre, ¬ Mentions l) ∧ Spells line n

theorem agrees_iff (lines : List Bytes) (n : Nat) :
    Agrees lines n ↔ lines.findSome? scan = none ∨ lines.findSome? scan = some (n : Int) := by
  refine or_congr ?_ ?_
  · rw [List.findSome?_eq_none_iff]
    exact forall₂_congr fun line _ => (scan_eq_none_iff line).symm
  · rw [List.findSome?_eq_some_iff]
    constructor
    · rintro ⟨pre, line, post, hlines, hpre, hspells⟩
      exact ⟨pre, line, post, hlines, (scan_eq_some_iff line n).mpr hspells,
        fun l hl => (scan_eq_none_iff l).mpr (hpre l hl)⟩
    · rintro ⟨pre, line, post, hlines, hscan, hpre⟩
      exact ⟨pre, line, post, hlines, fun l hl => (scan_eq_none_iff l).mp (hpre l hl),
        (scan_eq_some_iff line n).mp hscan⟩

section Forwarded

variable {req : HttpRequest} (bd : Bounded req) (up : Upstream) (cd : Client)
  (hbody : req.body.length < STRINGBUF_MAX_CAP)

include hbody in
theorem contentLengthOf_head_iff :
    contentLengthOf (outboundHeadText req up cd) = req.body.length ↔
      Agrees (forwardedLines req up cd) req.body.length := by
  have hscan : scan (outboundHeadText req up cd) =
      ((forwardedLines req up cd).findSome? scan).or
        (if req.body = [] then none else some (req.body.length : Int)) := by
    rw [outboundHeadText_lines, List.flatMap_append, List.append_assoc, scan_lines,
      scan_framing hbody]
  rw [agrees_iff, contentLengthOf, hscan]
  cases (forwardedLines req up cd).findSome? scan with
  | none =>
    by_cases hnil : req.body = []
    · simp [hnil]
    · simp [hnil]
  | some v => simp

include bd hbody in
theorem forwarded_oneLine :
    ∀ line ∈ forwardedLines req up cd ++ framingLines req.body, OneLine line := by
  have hout := outboundHeaders_outLine bd up cd hbody
  have hheader : ∀ h : Bytes × Bytes, OutLine h → OneLine (headerLineText h.1 h.2) := by
    intro h hh
    have hseps : LF ≠ COLON ∧ LF ≠ SP := by decide
    have hseps' : (0 : UInt8) ≠ COLON ∧ (0 : UInt8) ≠ SP := by decide
    exact ⟨by simp [headerLineText, hh.name.1, hh.value.1, hseps'],
      by simp [headerLineText, hh.name.2, hh.value.2, hseps]⟩
  obtain ⟨m, u, hm, hu, hmline, huline, -, -⟩ := bd.start
  have hstart : OneLine (requestLineText (formatString req.method) (formatString req.uri)
      (ascii "HTTP/1.1")) := by
    have hv : (0 : UInt8) ∉ ascii "HTTP/1.1" ∧ LF ∉ ascii "HTTP/1.1" := by decide
    have hsp : LF ≠ SP ∧ (0 : UInt8) ≠ SP := by decide
    rw [hm, hu]
    exact ⟨by simp [requestLineText, formatString, hmline.1, huline.1, hv.1, hsp.2],
      by simp [requestLineText, formatString, hmline.2, huline.2, hv.2, hsp.1]⟩
  intro line hline
  rw [forwardedLines, List.cons_append] at hline
  rcases List.mem_cons.mp hline with rfl | hmem
  · exact hstart
  · rw [framingLines, ← List.map_append] at hmem
    obtain ⟨h, hh, rfl⟩ := List.mem_map.mp hmem
    exact hheader h (hout h hh)

include bd hbody in
/-- The backend finds the end of the head where the proxy wrote it. -/
theorem headerEnd_outbound (r : Bytes) :
    headerEnd (outboundHeadText req up cd ++ r) = some (outboundHeadText req up cd).length := by
  have hone := forwarded_oneLine bd up cd hbody
  have htext := outboundHeadText_lines req up cd
  have hnul : (0 : UInt8) ∉ outboundHeadText req up cd := by
    rw [htext, List.mem_append, List.mem_flatMap]
    rintro (⟨line, hline, hmem⟩ | hmem)
    · rcases List.mem_append.mp hmem with h | h
      · exact (hone line hline).1 h
      · exact absurd h (by decide)
    · exact absurd hmem (by decide)
  have hcstr : cstr (outboundHeadText req up cd ++ r) = outboundHeadText req up cd ++ cstr r := by
    rw [cstr, List.takeWhile_append_of_pos]
    · rfl
    · intro b hb
      simpa using fun heq : b = 0 => hnul (heq ▸ hb)
  have hcons : forwardedLines req up cd ++ framingLines req.body =
      requestLineText (formatString req.method) (formatString req.uri) (ascii "HTTP/1.1") ::
        ((forwardedLines req up cd).tail ++ framingLines req.body) := rfl
  rw [hcons] at hone htext
  have hne : ∀ l ∈ (forwardedLines req up cd).tail ++ framingLines req.body, l ≠ [] ∧ LF ∉ l := by
    intro l hl
    refine ⟨?_, (hone l (List.mem_cons_of_mem _ hl)).2⟩
    rw [forwardedLines, List.tail_cons, framingLines, ← List.map_append] at hl
    obtain ⟨h, -, rfl⟩ := List.mem_map.mp hl
    simp [headerLineText]
  have hblock := strstr_block _ (cstr r) (hone _ List.mem_cons_self).2 hne
  rw [headerEnd, hcstr, htext, hblock, List.length_append]
  have hlen : 2 ≤ (List.flatMap (· ++ CRLF)
      (requestLineText (formatString req.method) (formatString req.uri) (ascii "HTTP/1.1") ::
        ((forwardedLines req up cd).tail ++ framingLines req.body))).length := by
    rw [List.flatMap_cons, List.length_append, List.length_append]
    change 2 ≤ _ + 2 + _
    omega
  change some (_ - 2 + 4) = some (_ + 2)
  congr 1
  omega

end Forwarded

/-- Exactly when the backend's reading of the header block agrees with what the proxy
wrote: no text of the client may look like the header, unless it spells the same number,
and the body must have fitted behind the head. -/
theorem backend_agrees_iff (fd : Nat) (p : HttpParser) (client : AcceptedReads fd p)
    (up : Upstream) (cd : Client) :
    let pending := (outboundRequest p up cd).data
    ∃ headers, headerEnd pending = some headers ∧
      ((contentLengthOf (pending.take headers) = p.req.body.length ∧
          pending.length = headers + p.req.body.length) ↔
        Agrees (forwardedLines p.req up cd) p.req.body.length ∧
          (outboundText p.req up cd).length < STRINGBUF_MAX_CAP) := by
  have bd := client.request_bounded
  have hbody := client.body_length
  have hstate : p.state ≠ .body := by
    rw [client.state_done]
    decide
  dsimp only
  refine ⟨(outboundHeadText p.req up cd).length, ?_⟩
  by_cases short : (outboundText p.req up cd).length < STRINGBUF_MAX_CAP
  · rw [outboundRequest_data bd hstate up cd short]
    rw [outboundText] at short ⊢
    refine ⟨headerEnd_outbound bd up cd hbody _, ?_⟩
    rw [List.length_append] at short ⊢
    rw [List.take_left' rfl, contentLengthOf_head_iff up cd hbody]
    exact ⟨fun h => ⟨h.1, short⟩, fun h => ⟨h.1, rfl⟩⟩
  · have hdata := outboundRequest_data_full bd hstate up cd hbody (by omega)
    have hend := headerEnd_outbound bd up cd hbody []
    rw [List.append_nil] at hend
    rw [hdata]
    refine ⟨hend, fun h => ?_, fun h => absurd h.2 short⟩
    -- the announced body is missing
    have hzero : p.req.body.length = 0 := by omega
    have hhead := outboundHeadText_length bd up cd hbody
    have hmax : STRINGBUF_MAX_CAP = 67108864 := by decide
    rw [outboundText, List.length_append] at short
    omega

/-- A header that only ends like the one the backend looks for. -/
def smuggledReads : List Bytes := [ascii "GET /a HTTP/1.1\r\nX-Content-Length: 5\r\n\r\n"]

def smuggledParser : HttpParser := (feedReads .default (httpParserInit 4) smuggledReads).1

def smuggled : AcceptedReads 4 smuggledParser where
  reads := smuggledReads
  nonempty := by decide
  bounded := by decide
  accepted := Prod.ext rfl (by decide +kernel)

/-- The backend waits for five body bytes that the proxy never sends. -/
theorem backend_misreads_smuggled :
    let pending := (outboundRequest smuggledParser sampleUpstream sampleClient).data
    feedReads .default (httpParserInit 4) smuggledReads = (smuggledParser, 1) ∧
      smuggledParser.req.body.length = 0 ∧ headerEnd pending = some pending.length ∧
      contentLengthOf (pending.take pending.length) = 5 := by
  dsimp only
  exact ⟨smuggled.accepted, by decide +kernel, by decide +kernel, by decide +kernel⟩

end JitFraming
