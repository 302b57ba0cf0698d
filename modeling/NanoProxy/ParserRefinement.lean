import NanoProxy.RequestDecoder

/-!
# The parser refines the decoder

A search that finds its byte behind the current line leads to a rejection: the
length that is computed from it wraps around and exceeds its limit. Inside the
line the parser and the decoder see the same bytes, so each pass of the parser's
loop makes the decoder's moves.
-/

namespace ParserRefinement

open CLib StringBuffer HttpRequestParser RequestDecoder Incremental

/-- The limits that a wrapped length must exceed leave room for that. -/
structure Sane (lim : Limits) : Prop where
  version : lim.maxHttpVersionSize < 2 ^ 63
  value : lim.maxHeaderValueSize < 2 ^ 63

theorem default_sane : Sane .default := ⟨by decide, by decide⟩

section Search

variable {buf a b : Bytes} {c : UInt8} {start i : Nat}

theorem findIdx?_of_mem (h : c ∈ a) :
    (a ++ b).findIdx? (· == c) = some (a.takeWhile (· != c)).length := by
  induction a with
  | nil => simp at h
  | cons x a ih =>
    by_cases hx : x = c
    · simp [hx, List.findIdx?_cons]
    · have hmem : c ∈ a := (List.mem_cons.mp h).resolve_left (fun h => hx h.symm)
      simp [List.findIdx?_cons, hx, ih hmem]

theorem memchr_of_mem (hd : buf.drop start = a ++ b) (h : c ∈ a) :
    memchr buf c start = some (start + (a.takeWhile (· != c)).length) := by
  rw [memchr, hd, findIdx?_of_mem h]
  rfl

theorem memchr_behind (hd : buf.drop start = a ++ b) (h : c ∉ a)
    (hi : memchr buf c start = some i) : start + a.length ≤ i := by
  rw [memchr, hd, List.findIdx?_append, List.findIdx?_eq_none_iff.mpr] at hi
  · simp only [Option.none_or, Option.map_map, Option.map_eq_some_iff, Function.comp] at hi
    obtain ⟨k, _, rfl⟩ := hi
    omega
  · intro x hx
    simpa using fun heq : x = c => h (heq ▸ hx)

theorem memchr_lf (hd : buf.drop start = a ++ LF :: b) (h : LF ∉ a) :
    memchr buf LF start = some (start + a.length) :=
  memchr_append hd fun _ hx heq => h (heq ▸ hx)

theorem memchr_lf_none (h : line? (buf.drop start) = none) : memchr buf LF start = none := by
  unfold line? at h
  split at h
  · cases h
  · rename_i hmem
    rw [memchr, List.findIdx?_eq_none_iff.mpr]
    · rfl
    · intro x hx
      simpa using fun heq : x = LF => hmem (heq ▸ hx)

theorem line?_line {line : Bytes} (h : LF ∉ line) (rest : Bytes) :
    line? (line ++ LF :: rest) = some line := by
  rw [line?, if_pos (by simp), List.takeWhile_append_of_pos (by
    intro b hb
    simpa using fun same : b = LF => h (same ▸ hb))]
  simp

theorem line?_split {l line : Bytes} (h : line? l = some line) :
    ∃ rest, l = line ++ LF :: rest ∧ LF ∉ line := by
  unfold line? at h
  split at h
  · rename_i hmem
    cases h
    have hdrop : l.dropWhile (· != LF) ≠ [] := by
      intro hnil
      have := List.dropWhile_eq_nil_iff.mp hnil LF hmem
      simp at this
    obtain ⟨x, rest, hx⟩ := List.exists_cons_of_ne_nil hdrop
    have hlf : x = LF := by
      have := List.head_dropWhile_not (p := (· != LF)) (l := l) (by simpa using hdrop)
      simpa [hx] using this
    refine ⟨rest, ?_, ?_⟩
    · rw [hlf] at hx
      rw [← hx, List.takeWhile_append_dropWhile]
    · intro hin
      have := List.mem_takeWhile_imp hin
      simp at this
  · cases h

end Search

theorem usub_of_le {a b : Nat} (h : b ≤ a) (ha : a < 2 ^ 64) : usub a b = a - b := by
  unfold usub
  omega

/-- A negative difference of two buffer positions is a huge `size_t`. -/
theorem usub_wraps {a b : Nat} (h : a < b) (hb : b < 2 ^ 63) : 2 ^ 63 ≤ usub a b := by
  unfold usub
  omega

theorem length_of_split {buf a b : Bytes} {start : Nat} (hd : buf.drop start = a ++ b)
    (hne : a ++ b ≠ []) : start + a.length + b.length = buf.length := by
  have hlen := congrArg List.length hd
  simp only [List.length_drop, List.length_append] at hlen
  have : 0 < a.length + b.length := by
    simpa [List.length_append] using List.length_pos_iff.mpr hne
  omega

/-- The lines of the parser and of the decoder lose the same CR. -/
theorem chompedLength_eq {buf line rest : Bytes} {pos : Nat}
    (hd : buf.drop pos = line ++ LF :: rest) (prev : pos = 0 ∨ buf[pos - 1]? = some LF)
    (small : buf.length < 2 ^ 63) :
    chompedLength buf (pos + line.length) line.length = (chomp line).length := by
  have hlen := length_of_split hd (by simp)
  simp only [List.length_cons] at hlen
  unfold chompedLength chomp
  rcases List.eq_nil_or_concat' line with rfl | ⟨init, last, rfl⟩
  · -- nothing on the line: the byte before it is the LF of the line above
    have hcr : ¬ (0 < pos + ([] : Bytes).length ∧
        buf[pos + ([] : Bytes).length - 1]? = some CR) := by
      rintro ⟨hpos, hbyte⟩
      rcases prev with h0 | hlf
      · simp [h0] at hpos
      · simp only [List.length_nil, Nat.add_zero] at hbyte
        rw [hlf] at hbyte
        exact absurd hbyte (by decide)
    rw [if_neg hcr]
    simp
  · have hget : buf[pos + (init ++ [last]).length - 1]? = some last := by
      have hidx : pos + (init ++ [last]).length - 1 = pos + init.length := by simp
      rw [hidx, ← List.getElem?_drop, hd]
      simp
    rw [hget]
    by_cases hcr : last = CR
    · have hlong : 0 < pos + (init ++ [last]).length := by
        rw [List.length_append, List.length_singleton]
        omega
      rw [if_pos ⟨hlong, by simp [hcr]⟩, if_pos (by simp [hcr])]
      rw [usub_of_le (by simp) (by omega)]
      simp
    · rw [if_neg (by simp [hcr]), if_neg (by simp [hcr])]

theorem strndup_of_begins {buf x : Bytes} {off : Nat} (h : x <+: buf.drop off) :
    strndup buf off x.length = cstr x := by
  rw [strndup, ← List.prefix_iff_eq_take.mp h, cstr]

theorem chomp_begins (line : Bytes) : chomp line <+: line := by
  unfold chomp
  split
  · exact List.dropLast_prefix line
  · exact List.prefix_refl line

theorem chomp_length_le (line : Bytes) : (chomp line).length ≤ line.length := by
  unfold chomp
  split <;> simp

/-- A byte that is not the chomped CR stays on the line. -/
theorem lt_chomp_length {text : Bytes} {k : Nat} {c : UInt8} (h : text[k]? = some c)
    (hc : c ≠ CR) : k < (chomp text).length := by
  obtain ⟨hk, hget⟩ := List.getElem?_eq_some_iff.mp h
  unfold chomp
  split
  · rename_i hlast
    rw [List.length_dropLast]
    by_contra hge
    have hkl : k = text.length - 1 := by omega
    rw [List.getLast?_eq_getElem?, ← hkl, h] at hlast
    exact hc (Option.some.inj hlast)
  · exact hk

theorem getElem?_takeWhile_length {l : Bytes} {c : UInt8} (h : c ∈ l) :
    l[(l.takeWhile (· != c)).length]? = some c := by
  have := findIdx?_of_mem (b := []) h
  rw [List.append_nil, List.findIdx?_eq_some_iff_getElem] at this
  obtain ⟨hlt, hget, _⟩ := this
  rw [List.getElem?_eq_getElem hlt]
  simpa using hget

theorem takeWhile_length_lt_iff {l : Bytes} {c : UInt8} :
    (l.takeWhile (· != c)).length < l.length ↔ c ∈ l := by
  constructor
  · intro hlt
    by_contra hmem
    rw [List.takeWhile_eq_self_iff.mpr] at hlt
    · omega
    · intro x hx
      simpa using fun heq : x = c => hmem (heq ▸ hx)
  · intro hmem
    exact (List.getElem?_eq_some_iff.mp (getElem?_takeWhile_length hmem)).1

section RequestLine

variable {lim : Limits} {p : HttpParser} {line rest : Bytes}

/-- The second space is the last thing the request line is searched for; behind the
line it makes `version_len` wrap. -/
theorem version_rejected {pos text space2 : Nat} (sane : Sane lim) (h : pos + text < space2 + 1)
    (small : space2 < 2 ^ 62) :
    usub (pos + text) (space2 + 1) = 0 ∨
      lim.maxHttpVersionSize < usub (pos + text) (space2 + 1) := by
  right
  have := usub_wraps h (by omega)
  have := sane.version
  omega

theorem feedRequestLine_none (sane : Sane lim)
    (hd : p.buffer.data.drop p.pos = line ++ LF :: rest) (hlf : LF ∉ line)
    (prev : p.pos = 0 ∨ p.buffer.data[p.pos - 1]? = some LF)
    (small : p.buffer.data.length < 2 ^ 62) (h : decodeRequestLine lim line = none) :
    ∃ q, feedRequestLine lim p = .ret q (-1) := by
  have hchomp := chompedLength_eq hd prev (by omega)
  have hcl := chomp_length_le line
  unfold feedRequestLine
  simp only [stringbufMemchr_eq, stringbufFind_singleton, memchr_lf hd hlf,
    Nat.add_sub_cancel_left, hchomp]
  split
  · exact ⟨_, rfl⟩
  rename_i hshort
  by_cases hsp : SP ∈ line
  · rw [memchr_of_mem hd hsp]
    dsimp only
    split
    · exact ⟨_, rfl⟩
    rename_i hmethod
    set m := (line.takeWhile (· != SP)).length with hm
    have hmlt : m < line.length := takeWhile_length_lt_iff.mpr hsp
    have hd2 : p.buffer.data.drop (p.pos + m + 1) = line.drop (m + 1) ++ LF :: rest := by
      rw [Nat.add_assoc, ← List.drop_drop, hd, List.drop_append_of_le_length (by omega)]
    by_cases hsp2 : SP ∈ line.drop (m + 1)
    · rw [memchr_of_mem hd2 hsp2]
      dsimp only
      split
      · exact ⟨_, rfl⟩
      rename_i huri
      split
      · exact ⟨_, rfl⟩
      rename_i hversion
      exfalso
      set u := ((line.drop (m + 1)).takeWhile (· != SP)).length with hu
      have hult : u < (line.drop (m + 1)).length := takeWhile_length_lt_iff.mpr hsp2
      have hin : m + 1 + u < (chomp line).length := by
        have hget := getElem?_takeWhile_length hsp2
        rw [List.getElem?_drop] at hget
        exact lt_chomp_length hget (by decide)
      rw [usub_of_le (by omega)] at hversion
      · have hvl : ((chomp line).drop (m + 1 + u + 1)).length =
            p.pos + (chomp line).length - (p.pos + m + 1 + u + 1) := by
          rw [List.length_drop]
          omega
        simp only [decodeRequestLine, ← hm, ← hu, hvl] at h
        rw [if_pos (by omega)] at h
        cases h
      · have := length_of_split hd (by simp)
        omega
    · cases hs2 : memchr p.buffer.data SP (p.pos + m + 1) with
      | none => exact ⟨_, rfl⟩
      | some space2 =>
        dsimp only
        have hbehind : SP ∉ line.drop (m + 1) ++ [LF] := by
          simp only [List.mem_append, List.mem_singleton, not_or]
          exact ⟨hsp2, by decide⟩
        have hge := memchr_behind (b := rest) (by simpa using hd2) hbehind hs2
        simp only [List.length_append, List.length_drop, List.length_singleton] at hge
        split
        · exact ⟨_, rfl⟩
        · rw [if_pos (version_rejected sane (by omega) (by have := (memchr_bounds hs2).2; omega))]
          exact ⟨_, rfl⟩
  · cases hs1 : memchr p.buffer.data SP p.pos with
    | none => exact ⟨_, rfl⟩
    | some space1 =>
      dsimp only
      have hbehind : SP ∉ line ++ [LF] := by
        simp only [List.mem_append, List.mem_singleton, not_or]
        exact ⟨hsp, by decide⟩
      have hge := memchr_behind (b := rest) (by simpa using hd) hbehind hs1
      simp only [List.length_append, List.length_singleton] at hge
      split
      · exact ⟨_, rfl⟩
      cases hs2 : memchr p.buffer.data SP (space1 + 1) with
      | none => exact ⟨_, rfl⟩
      | some space2 =>
        dsimp only
        have hb := memchr_bounds hs2
        split
        · exact ⟨_, rfl⟩
        · rw [if_pos (version_rejected sane (by omega) (by omega))]
          exact ⟨_, rfl⟩

theorem feedRequestLine_some
    (hd : p.buffer.data.drop p.pos = line ++ LF :: rest) (hlf : LF ∉ line)
    (prev : p.pos = 0 ∨ p.buffer.data[p.pos - 1]? = some LF)
    (small : p.buffer.data.length < 2 ^ 62) (hreq : p.req = .empty) {req : HttpRequest}
    (h : decodeRequestLine lim line = some req) :
    feedRequestLine lim p =
      .next { p with req := req, pos := p.pos + line.length + 1, state := .headers } := by
  have hchomp := chompedLength_eq hd prev (by omega)
  have hcl := chomp_length_le line
  have hlen := length_of_split hd (by simp)
  simp only [decodeRequestLine] at h
  set m := (line.takeWhile (· != SP)).length with hm
  set u := ((line.drop (m + 1)).takeWhile (· != SP)).length with hu
  split at h
  swap
  · cases h
  rename_i hc
  obtain ⟨hshort, hmlt, hult, hmethod, huri, hversion⟩ := hc
  have hsp : SP ∈ line := takeWhile_length_lt_iff.mp hmlt
  have hsp2 : SP ∈ line.drop (m + 1) := takeWhile_length_lt_iff.mp hult
  have hd2 : p.buffer.data.drop (p.pos + m + 1) = line.drop (m + 1) ++ LF :: rest := by
    rw [Nat.add_assoc, ← List.drop_drop, hd, List.drop_append_of_le_length (by omega)]
  have hin : m + 1 + u < (chomp line).length := by
    have hget := getElem?_takeWhile_length hsp2
    rw [List.getElem?_drop] at hget
    exact lt_chomp_length hget (by decide)
  have hvl : usub (p.pos + (chomp line).length) (p.pos + m + 1 + u + 1) =
      ((chomp line).drop (m + 1 + u + 1)).length := by
    rw [usub_of_le (by omega) (by omega), List.length_drop]
    omega
  unfold feedRequestLine
  simp only [stringbufMemchr_eq, stringbufFind_singleton, memchr_lf hd hlf,
    Nat.add_sub_cancel_left, hchomp]
  rw [if_neg (by omega), memchr_of_mem hd hsp]
  simp only [Nat.add_sub_cancel_left, ← hm]
  rw [if_neg (by omega), memchr_of_mem hd2 hsp2]
  simp only [Nat.add_sub_cancel_left, ← hu, hvl]
  rw [if_neg (by omega), if_neg (by omega)]
  have hm' : strndup p.buffer.data p.pos m = cstr (line.takeWhile (· != SP)) :=
    strndup_of_begins (by rw [hd]; exact (List.takeWhile_prefix _).trans (List.prefix_append _ _))
  have hu' : strndup p.buffer.data (p.pos + m + 1) u =
      cstr ((line.drop (m + 1)).takeWhile (· != SP)) :=
    strndup_of_begins (by rw [hd2]; exact (List.takeWhile_prefix _).trans (List.prefix_append _ _))
  have hv' : strndup p.buffer.data (p.pos + m + 1 + u + 1)
      ((chomp line).drop (m + 1 + u + 1)).length = cstr ((chomp line).drop (m + 1 + u + 1)) := by
    have hd3 : p.buffer.data.drop (p.pos + m + 1 + u + 1) =
        (line ++ LF :: rest).drop (m + 1 + u + 1) := by
      rw [← hd, List.drop_drop]
      congr 1
      omega
    apply strndup_of_begins
    rw [hd3]
    obtain ⟨t, ht⟩ := (chomp_begins line).trans (List.prefix_append _ (LF :: rest))
    exact ⟨t, by rw [← List.drop_append_of_le_length (by omega), ht]⟩
  cases h
  rw [hm', hu', hv', hreq]

end RequestLine

/-- The two trimming loops leave the positions of the trimmed text. -/
theorem trim_positions {buf x y : Bytes} {a z start stop : Nat} (hd : buf.drop a = x ++ y)
    (hz : z = a + x.length) (hstart : skipSpaces buf a z = start)
    (hstop : dropSpaces buf start z = stop) :
    stop - start = (trim x).length ∧ start ≤ stop ∧ stop ≤ z ∧ trim x <+: buf.drop start := by
  have hslice : slice buf a (a + x.length) = x := by
    rw [slice_eq_take_drop, hd, Nat.add_sub_cancel_left, List.take_left']
    rfl
  have htake : (x.takeWhile isspace).length + (x.dropWhile isspace).length = x.length := by
    rw [← List.length_append, List.takeWhile_append_dropWhile]
  have hdrop : x.drop (x.takeWhile isspace).length = x.dropWhile isspace := by
    have hx := List.takeWhile_append_dropWhile (p := isspace) (l := x)
    exact (congrArg (List.drop (x.takeWhile isspace).length) hx.symm).trans (List.drop_left' rfl)
  have hrest : buf.drop (a + (x.takeWhile isspace).length) = x.dropWhile isspace ++ y := by
    rw [← List.drop_drop, hd, List.drop_append_of_le_length (by omega), hdrop]
  have hslice2 : slice buf (a + (x.takeWhile isspace).length) (a + x.length) =
      x.dropWhile isspace := by
    rw [slice_eq_take_drop, hrest, List.take_append_of_le_length (by omega), List.take_of_length_le]
    omega
  have htrim : (trim x).length + ((x.dropWhile isspace).reverse.takeWhile isspace).length =
      (x.dropWhile isspace).length := by
    have hrev := congrArg List.length
      (List.takeWhile_append_dropWhile (p := isspace) (l := (x.dropWhile isspace).reverse))
    rw [List.length_append, List.length_reverse] at hrev
    rw [trim, List.rdropWhile, List.length_reverse]
    omega
  subst hz
  simp only [skipSpaces, hslice] at hstart
  subst hstart
  simp only [dropSpaces, hslice2] at hstop
  refine ⟨by omega, by omega, by omega, ?_⟩
  rw [hrest]
  exact (List.rdropWhile_prefix _ _).trans (List.prefix_append _ _)

section HeaderLine

variable {lim : Limits} {p : HttpParser} {line rest : Bytes}

/-- The name stands at the beginning of a line, the value behind the first colon. -/
theorem headerLine_split {bc : Bytes} (hbc : bc = line.takeWhile (· != COLON))
    (hd : p.buffer.data.drop p.pos = line ++ LF :: rest) (hlt : bc.length < line.length) :
    p.buffer.data.drop p.pos = bc ++ (line.drop bc.length ++ LF :: rest) ∧
      p.buffer.data.drop (p.pos + bc.length + 1) = line.drop (bc.length + 1) ++ LF :: rest ∧
      p.pos + line.length = p.pos + bc.length + 1 + (line.drop (bc.length + 1)).length := by
  have front : bc <+: line := hbc ▸ List.takeWhile_prefix _
  refine ⟨?_, ?_, ?_⟩
  · rw [hd, ← List.append_assoc]
    congr 1
    conv_lhs => rw [← List.take_append_drop bc.length line]
    rw [← List.prefix_iff_eq_take.mp front]
  · rw [Nat.add_assoc, ← List.drop_drop, hd, List.drop_append_of_le_length (by omega)]
  · rw [List.length_drop]
    omega

/-- A pass over a header line, for any way to refuse, to wait, to end the head and to store. -/
def headerPass {α : Type} (lim : Limits) (p : HttpParser) (refuse wait : α) (blank : Nat → α)
    (store : Nat → Bytes → Bytes → α) : α :=
  let buf := p.buffer.data
  match stringbufMemchr p.buffer LF p.pos with
  | none => wait
  | some lineEnd =>
    let lineLen := lineEnd - p.pos
    if lim.maxHeaderLineSize < lineLen then refuse else
    let lineLen := chompedLength buf lineEnd lineLen
    if lineLen = 0 then blank lineEnd else
    match stringbufMemchr p.buffer COLON p.pos with
    | none => refuse
    | some colon =>
      let nameStart := skipSpaces buf p.pos colon
      let nameEnd := dropSpaces buf nameStart colon
      let valueStart := skipSpaces buf (colon + 1) lineEnd
      let valueEnd := dropSpaces buf valueStart lineEnd
      let nameLen := nameEnd - nameStart
      if nameLen = 0 ∨ lim.maxHeaderNameSize < nameLen then refuse else
      let key := lower (strndup buf nameStart nameLen)
      let valueLen := usub valueEnd valueStart
      if lim.maxHeaderValueSize < valueLen then refuse else
      store lineEnd key (strndup buf valueStart valueLen)

/-- The header is put into the map, and the number of headers is checked. -/
def storeHeader (lim : Limits) (p : HttpParser) (lineEnd : Nat) (key value : Bytes) : Flow :=
  if lim.maxHeaders < (shputs p.req.headers key value).length then
    parseError { p with req := { p.req with headers := shputs p.req.headers key value } }
  else .next { p with
    req := { p.req with headers := shputs p.req.headers key value }
    pos := lineEnd + 1 }

theorem feedHeaderLine_eq (lim : Limits) (p : HttpParser) :
    feedHeaderLine lim p =
      headerPass lim p (parseError p) (.ret p 0) (feedEndOfHeaders lim p) (storeHeader lim p) := rfl

section HeaderPass

variable {α : Type} {refuse wait : α} {blank : Nat → α} {store : Nat → Bytes → Bytes → α}

theorem headerPass_wait (h : line? (p.buffer.data.drop p.pos) = none) :
    headerPass lim p refuse wait blank store = wait := by
  rw [headerPass, stringbufMemchr_eq, memchr_lf_none h]

theorem headerPass_blank
    (hd : p.buffer.data.drop p.pos = line ++ LF :: rest) (hlf : LF ∉ line)
    (prev : p.pos = 0 ∨ p.buffer.data[p.pos - 1]? = some LF)
    (small : p.buffer.data.length < 2 ^ 62) (hblank : chomp line = []) :
    headerPass lim p refuse wait blank store =
      if lim.maxHeaderLineSize < line.length then refuse else blank (p.pos + line.length) := by
  have hlen := length_of_split hd (by simp)
  unfold headerPass
  simp only [stringbufMemchr_eq, memchr_lf hd hlf, Nat.add_sub_cancel_left,
    chompedLength_eq hd prev (by omega), hblank, List.length_nil, if_true]

/-- A line without a colon is refused: a colon behind it gives the value a length that wraps. -/
theorem headerPass_colonless (sane : Sane lim)
    (hd : p.buffer.data.drop p.pos = line ++ LF :: rest) (hlf : LF ∉ line)
    (prev : p.pos = 0 ∨ p.buffer.data[p.pos - 1]? = some LF)
    (small : p.buffer.data.length < 2 ^ 62) (hblank : chomp line ≠ []) (hcol : COLON ∉ line) :
    headerPass lim p refuse wait blank store = refuse := by
  have hlen := length_of_split hd (by simp)
  unfold headerPass
  simp only [stringbufMemchr_eq, memchr_lf hd hlf, Nat.add_sub_cancel_left,
    chompedLength_eq hd prev (by omega)]
  split
  · rfl
  rw [if_neg (by simpa using hblank)]
  cases hc : memchr p.buffer.data COLON p.pos with
  | none => rfl
  | some colon =>
    dsimp only
    have hbehind : COLON ∉ line ++ [LF] := by
      simp only [List.mem_append, List.mem_singleton, not_or]
      exact ⟨hcol, by decide⟩
    have hge := memchr_behind (b := rest) (by simpa using hd) hbehind hc
    simp only [List.length_append, List.length_singleton] at hge
    have hb := memchr_bounds hc
    split
    · rfl
    have hempty : slice p.buffer.data (colon + 1) (p.pos + line.length) = [] := by
      rw [slice_eq_take_drop, Nat.sub_eq_zero_of_le (by omega), List.take_zero]
    have hwrap := usub_wraps (a := p.pos + line.length) (b := colon + 1) (by omega) (by omega)
    have := sane.value
    simp only [skipSpaces, dropSpaces, hempty, List.takeWhile_nil, List.length_nil, Nat.add_zero,
      List.reverse_nil, Nat.sub_zero]
    rw [if_pos (by omega)]

/-- What is stored of a line is the trimmed name and the trimmed value, as C strings. -/
theorem headerPass_line (sane : Sane lim)
    (hd : p.buffer.data.drop p.pos = line ++ LF :: rest) (hlf : LF ∉ line)
    (prev : p.pos = 0 ∨ p.buffer.data[p.pos - 1]? = some LF)
    (small : p.buffer.data.length < 2 ^ 62) (hblank : chomp line ≠ []) :
    headerPass lim p refuse wait blank store =
      let beforeColon := line.takeWhile (· != COLON)
      let name := trim beforeColon
      let value := trim (line.drop (beforeColon.length + 1))
      if line.length ≤ lim.maxHeaderLineSize ∧ beforeColon.length < line.length ∧
          (0 < name.length ∧ name.length ≤ lim.maxHeaderNameSize) ∧
          value.length ≤ lim.maxHeaderValueSize
      then store (p.pos + line.length) (lower (cstr name)) (cstr value) else refuse := by
  dsimp only
  set bc := line.takeWhile (· != COLON) with hbc
  by_cases hcol : COLON ∈ line
  swap
  · rw [headerPass_colonless sane hd hlf prev small hblank hcol, if_neg]
    rintro ⟨-, hlt, -⟩
    exact hcol (takeWhile_length_lt_iff.mp hlt)
  have hlen := length_of_split hd (by simp)
  have hlt : bc.length < line.length := takeWhile_length_lt_iff.mpr hcol
  obtain ⟨hdn, hdv, hend⟩ := headerLine_split hbc hd hlt
  obtain ⟨hnl, -, -, hnp⟩ := trim_positions hdn rfl rfl rfl
  obtain ⟨hvl, hvle, hvs, hvp⟩ := trim_positions hdv hend rfl rfl
  unfold headerPass
  simp only [stringbufMemchr_eq, memchr_lf hd hlf, Nat.add_sub_cancel_left,
    chompedLength_eq hd prev (by omega)]
  by_cases hshort : line.length ≤ lim.maxHeaderLineSize
  swap
  · rw [if_pos (Nat.lt_of_not_le hshort), if_neg (fun hc => hshort hc.1)]
  rw [if_neg (Nat.not_lt.mpr hshort), if_neg (by simpa using hblank), memchr_of_mem hd hcol]
  dsimp only
  rw [← hbc, hnl]
  by_cases hname : 0 < (trim bc).length ∧ (trim bc).length ≤ lim.maxHeaderNameSize
  swap
  · rw [if_pos (by omega), if_neg (fun hc => hname hc.2.2.1)]
  rw [if_neg (by omega), usub_of_le hvle (by omega), hvl]
  by_cases hvalue : (trim (line.drop (bc.length + 1))).length ≤ lim.maxHeaderValueSize
  swap
  · rw [if_pos (Nat.lt_of_not_le hvalue), if_neg (fun hc => hvalue hc.2.2.2)]
  rw [if_neg (Nat.not_lt.mpr hvalue), if_pos ⟨hshort, hlt, hname, hvalue⟩,
    strndup_of_begins hnp, strndup_of_begins hvp]

end HeaderPass

theorem feedHeaderLine_none (sane : Sane lim)
    (hd : p.buffer.data.drop p.pos = line ++ LF :: rest) (hlf : LF ∉ line)
    (prev : p.pos = 0 ∨ p.buffer.data[p.pos - 1]? = some LF)
    (small : p.buffer.data.length < 2 ^ 62) (hblank : chomp line ≠ [])
    (h : decodeHeaderLine lim p.req.headers line = none) :
    ∃ q, feedHeaderLine lim p = .ret q (-1) := by
  rw [feedHeaderLine_eq, headerPass_line sane hd hlf prev small hblank]
  dsimp only
  split
  · rename_i fits
    rw [storeHeader, if_pos]
    · exact ⟨_, rfl⟩
    · by_contra count
      rw [decodeHeaderLine, if_pos
        ⟨fits.1, fits.2.1, fits.2.2.1, fits.2.2.2, Nat.le_of_not_lt count⟩] at h
      cases h
  · exact ⟨_, rfl⟩

theorem feedHeaderLine_some (sane : Sane lim)
    (hd : p.buffer.data.drop p.pos = line ++ LF :: rest) (hlf : LF ∉ line)
    (prev : p.pos = 0 ∨ p.buffer.data[p.pos - 1]? = some LF)
    (small : p.buffer.data.length < 2 ^ 62) (hblank : chomp line ≠ []) {hs : Headers}
    (h : decodeHeaderLine lim p.req.headers line = some hs) :
    feedHeaderLine lim p =
      .next { p with req := { p.req with headers := hs }, pos := p.pos + line.length + 1 } := by
  simp only [decodeHeaderLine] at h
  split at h
  · rename_i fits
    cases h
    rw [feedHeaderLine_eq, headerPass_line sane hd hlf prev small hblank]
    dsimp only
    rw [if_pos ⟨fits.1, fits.2.1, fits.2.2.1, fits.2.2.2.1⟩, storeHeader,
      if_neg (Nat.not_lt.mpr fits.2.2.2.2)]
  · cases h

/-- The blank line hands over to the framing that the header table asks for. -/
theorem feedHeaderLine_blank
    (hd : p.buffer.data.drop p.pos = line ++ LF :: rest) (hlf : LF ∉ line)
    (prev : p.pos = 0 ∨ p.buffer.data[p.pos - 1]? = some LF)
    (small : p.buffer.data.length < 2 ^ 62) (hblank : chomp line = []) :
    feedHeaderLine lim p = if lim.maxHeaderLineSize < line.length then parseError p
      else feedEndOfHeaders lim p (p.pos + line.length) := by
  rw [feedHeaderLine_eq, headerPass_blank hd hlf prev small hblank]

end HeaderLine

/-- A line starts here: at the front of the buffer or behind an LF. -/
def AtLineStart (p : HttpParser) : Prop := p.pos = 0 ∨ p.buffer.data[p.pos - 1]? = some LF

def PhaseSim (lim : Limits) (p : HttpParser) : Phase → Prop
  | .requestLine => p.state = .requestLine ∧ AtLineStart p ∧ p.chunked = false ∧ p.req = .empty
  | .headers => p.state = .headers ∧ AtLineStart p ∧ p.chunked = false ∧ p.req.body = []
  | .counted n => p.state = .body ∧ p.chunked = false ∧ 0 < n ∧
      p.contentLength = p.req.body.length + n ∧ p.contentLength ≤ lim.maxBodySize
  | .chunkSize => p.state = .body ∧ AtLineStart p ∧ p.chunked = true ∧ p.contentLength = 0
  | .chunkData n => p.state = .body ∧ p.chunked = true ∧ p.contentLength = n ∧ 0 < n
  | .finished => False

/-- The parser `p` waits for input in the decoder's state, with `l` unread. -/
structure Sim (lim : Limits) (p : HttpParser) (s : DecodeState) (l : Bytes) : Prop where
  rest : p.buffer.data.drop p.pos = l
  bound : p.pos ≤ p.buffer.data.length
  req : p.req = s.req
  streaming : p.streamingBody = false
  phase : PhaseSim lim p s.phase

/-- What the parser keeps of the message it has just completed. -/
structure Completed (q : HttpParser) (s : DecodeState) (l : Bytes) : Prop where
  state : q.state = .done
  req : q.req = s.req
  rest : q.buffer.data.drop q.pos = l
  streaming : q.streamingBody = false

/-- The return value and the parser left by a feed that started with `p`. -/
def Matches (lim : Limits) (p : HttpParser) (result : HttpParser × Int) :
    Outcome DecodeState UInt8 → Prop
  | .pending s l => result.2 = 0 ∧ Sim lim result.1 s l ∧ result.1.buffer = p.buffer ∧
      result.1.fd = p.fd
  | .failed => result.2 = -1
  | .complete s l => result.2 = 1 ∧ Completed result.1 s l ∧ result.1.fd = p.fd

theorem Sim.length {lim : Limits} {p : HttpParser} {s : DecodeState} {l : Bytes}
    (h : Sim lim p s l) : p.pos + l.length = p.buffer.data.length := by
  have hlen := congrArg List.length h.rest
  have := h.bound
  rw [List.length_drop] at hlen
  omega

/-- The position behind a line is the start of the next one. -/
theorem atLineStart_next {p q : HttpParser} {line rest : Bytes}
    (hd : p.buffer.data.drop p.pos = line ++ LF :: rest) (hb : q.buffer = p.buffer)
    (hq : q.pos = p.pos + line.length + 1) :
    AtLineStart q ∧ q.buffer.data.drop q.pos = rest ∧ q.pos ≤ q.buffer.data.length := by
  have hlen := length_of_split hd (by simp)
  rw [List.length_cons] at hlen
  refine ⟨Or.inr ?_, ?_, ?_⟩
  · rw [hb, hq, Nat.add_sub_cancel, ← List.getElem?_drop, hd]
    simp
  · rw [hb, hq, Nat.add_assoc, ← List.drop_drop, hd, ← List.drop_drop, List.drop_left' rfl]
    rfl
  · rw [hb, hq]
    omega

/-- The shift behind a completed body keeps what is unread. -/
theorem consume_rest (p : HttpParser) :
    ({ p with buffer := stringbufConsume p.buffer p.pos, pos := 0 } : HttpParser).buffer.data.drop 0
      = p.buffer.data.drop p.pos := by
  simp only [stringbufConsume, StringBuf.size, List.drop_zero]
  by_cases h0 : p.pos = 0
  · simp [h0]
  rw [if_neg h0]
  by_cases hlt : p.buffer.data.length < p.pos
  · rw [if_pos hlt, List.drop_eq_nil_of_le (Nat.le_refl _), List.drop_eq_nil_of_le (by omega)]
  · rw [if_neg hlt]

section Chunks

variable {lim : Limits} {p : HttpParser} {line rest : Bytes}

theorem feedChunkSize_eq (hd : p.buffer.data.drop p.pos = line ++ LF :: rest) (hlf : LF ∉ line)
    (prev : AtLineStart p) (small : p.buffer.data.length < 2 ^ 62) :
    feedChunkSize lim p = match decodeChunkSize lim p.req.body.length line with
      | none => parseError p
      | some n =>
        let q := { p with contentLength := n, pos := p.pos + line.length + 1 }
        .next (if n = 0 then { q with state := .done } else q) := by
  have hlen := length_of_split hd (by simp)
  have htext : (p.buffer.data.drop p.pos).take (chomp line).length = chomp line := by
    rw [hd, List.take_append_of_le_length (chomp_length_le line)]
    exact (List.prefix_iff_eq_take.mp (chomp_begins line)).symm
  unfold feedChunkSize decodeChunkSize
  simp only [stringbufMemchr_eq, memchr_lf hd hlf, Nat.add_sub_cancel_left,
    chompedLength_eq hd prev (by omega), htext]
  have hcstr : (chomp line).takeWhile (· != 0) = cstr (chomp line) := rfl
  rw [hcstr]
  set digits := (cstr (chomp line)).takeWhile (· != SEMI)
  by_cases hl : (chomp line).length = 0 ∨ 32 ≤ (chomp line).length
  · rw [if_pos hl, if_neg (by omega)]
  rw [if_neg hl]
  by_cases hx : digits.any fun b => !isxdigit b
  · rw [if_pos hx, if_neg]
    rintro ⟨-, hall, -⟩
    simp only [List.any_eq_true, Bool.not_eq_true'] at hx
    obtain ⟨b, hb, hnot⟩ := hx
    rw [List.all_eq_true.mp hall b hb] at hnot
    cases hnot
  have hall : digits.all isxdigit := by
    rw [List.all_eq_true]
    intro b hb
    by_contra hnot
    exact hx (List.any_eq_true.mpr ⟨b, hb, by simpa using hnot⟩)
  rw [if_neg hx]
  by_cases hs : (strtoull digits 16).erange ∨ (strtoull digits 16).rest ≠ [] ∨
      lim.maxChunkSize < (strtoull digits 16).value ∨
      lim.maxBodySize - (strtoull digits 16).value < p.req.body.length
  · rw [if_pos hs, if_neg]
    rintro ⟨-, -, he, hr, hc, hb⟩
    rcases hs with h | h | h | h
    · rw [he] at h; cases h
    · exact h hr
    · omega
    · omega
  · rw [if_neg hs]
    simp only [not_or, not_lt, ne_eq, not_not, Bool.not_eq_true] at hs
    have hok : (0 < (chomp line).length ∧ (chomp line).length < 32) ∧ digits.all isxdigit ∧
        (strtoull digits 16).erange = false ∧ (strtoull digits 16).rest = [] ∧
        (strtoull digits 16).value ≤ lim.maxChunkSize ∧
        p.req.body.length ≤ lim.maxBodySize - (strtoull digits 16).value :=
      ⟨by omega, hall, hs⟩
    rw [if_pos hok]

/-- The data of a chunk, once it and its CRLF have arrived. -/
theorem feedChunkData_eq {buflen n : Nat} {l : Bytes} (hd : p.buffer.data.drop p.pos = l)
    (hn : p.contentLength = n) (hbuflen : p.pos + l.length = buflen) (hlen : n + 2 ≤ l.length) :
    feedChunkData buflen p = if (l.drop n).take 2 ≠ CRLF then parseError p
      else .next { p with
        req := { p.req with body := p.req.body ++ l.take n }
        pos := p.pos + n + 2
        contentLength := 0 } := by
  have hcopy : (if n < buflen - p.pos - 2 then n else buflen - p.pos - 2) = n := by
    split <;> omega
  subst hd hn
  unfold feedChunkData
  simp only [hcopy, List.drop_drop]
  rw [if_neg (by omega)]

/-- What the inner loop leaves behind: a verdict, a completed body, or a pause with
the buffer used up. -/
def FlowMatches (lim : Limits) (p : HttpParser) (o : Outcome DecodeState UInt8) : Flow → Prop
  | .ret q code => Matches lim p (q, code) o
  | .next q => q.buffer = p.buffer ∧ q.fd = p.fd ∧
      ((∃ s l, o = .complete s l ∧ Completed q s l) ∨ (∃ s, o = .pending s [] ∧ Sim lim q s []))

variable {p₀ : HttpParser} {l : Bytes}

/-- What is known of the rounds of the inner loop that are left. -/
def ChunkRounds (lim : Limits) (p₀ : HttpParser) (fuel : Nat) : Prop :=
  ∀ {p : HttpParser} {s : DecodeState} {l : Bytes}, p.buffer = p₀.buffer → p.fd = p₀.fd →
    Sim lim p s l → p.chunked = true → p.state = .body → l.length ≤ fuel →
    FlowMatches lim p₀ ((decoder lim).run s l) (feedChunks lim p₀.buffer.data.length fuel p)

/-- The inner loop behind a pass. -/
def behindChunk (lim : Limits) (p₀ : HttpParser) (fuel : Nat) : Flow → Flow
  | .ret p code => .ret p code
  | .next p =>
    if p.state = .done then .next p else feedChunks lim p₀.buffer.data.length fuel p

theorem chunkSize_round {req : HttpRequest} {fuel : Nat}
    (small : p.buffer.data.length < 2 ^ 62) (hbuf : p.buffer = p₀.buffer) (hfd : p.fd = p₀.fd)
    (hsim : Sim lim p ⟨.chunkSize, req⟩ l) (hl : l.length ≤ fuel + 1)
    (ih : ChunkRounds lim p₀ fuel) :
    FlowMatches lim p₀ ((decoder lim).run ⟨.chunkSize, req⟩ l)
      (behindChunk lim p₀ fuel (feedChunkSize lim p)) := by
  obtain ⟨hst, hstart, hch, -⟩ := hsim.phase
  obtain rfl : p.req = req := hsim.req
  cases hline : line? l with
  | none =>
    have hm := step_no_line lim (s := ⟨.chunkSize, p.req⟩) (Or.inr (Or.inr rfl)) hline
    have hnone : feedChunkSize lim p = .ret p 0 := by
      rw [feedChunkSize, stringbufMemchr_eq, memchr_lf_none (by rw [hsim.rest]; exact hline)]
    rw [Decoder.run_more hm, hnone]
    exact ⟨rfl, hsim, hbuf, hfd⟩
  | some line =>
    obtain ⟨rest, rfl, hlf⟩ := line?_split hline
    have hd := hsim.rest
    have hm := step_line lim (s := ⟨.chunkSize, p.req⟩) (Or.inr (Or.inr rfl)) hline
    rw [feedChunkSize_eq hd hlf hstart small]
    simp only [moveLine] at hm
    cases hsize : decodeChunkSize lim p.req.body.length line with
    | none =>
      rw [hsize] at hm
      rw [Decoder.run_fail hm]
      exact rfl
    | some n =>
      obtain ⟨hnext, hrest, hbound⟩ := atLineStart_next (q :=
        { p with contentLength := n, pos := p.pos + line.length + 1 }) hd rfl rfl
      rw [hsize] at hm
      cases n with
      | zero =>
        rw [Decoder.run_done hm, drop_line]
        exact ⟨hbuf, hfd, Or.inl ⟨_, _, rfl, rfl, rfl, hrest, hsim.streaming⟩⟩
      | succ n =>
        have hnd : p.state ≠ .done := by rw [hst]; decide
        rw [Decoder.run_eat hm, drop_line]
        simp only [Nat.add_one_ne_zero, if_false, behindChunk]
        rw [if_neg hnd]
        refine ih (by exact hbuf) (by exact hfd) ⟨hrest, hbound, rfl, hsim.streaming, ?_⟩ hch
          hst ?_
        · exact ⟨hst, hch, rfl, by omega⟩
        · simp only [List.length_append, List.length_cons] at hl
          omega

theorem chunkData_round {req : HttpRequest} {n fuel : Nat}
    (hbuf : p.buffer = p₀.buffer) (hfd : p.fd = p₀.fd)
    (hsim : Sim lim p ⟨.chunkData n, req⟩ l) (hl : l.length ≤ fuel + 1)
    (ih : ChunkRounds lim p₀ fuel) :
    FlowMatches lim p₀ ((decoder lim).run ⟨.chunkData n, req⟩ l)
      (behindChunk lim p₀ fuel (feedChunkData p₀.buffer.data.length p)) := by
  obtain ⟨hst, hch, hcl, hn⟩ := hsim.phase
  obtain rfl : p.req = req := hsim.req
  have hlen := hsim.length
  by_cases hshort : l.length < n + 2
  · have hm : (decoder lim).step ⟨.chunkData n, p.req⟩ l = .more := if_pos hshort
    have hwait : feedChunkData p₀.buffer.data.length p = .ret p 0 := by
      unfold feedChunkData
      rw [if_pos (by rw [hcl, ← hbuf]; omega)]
    rw [Decoder.run_more hm, hwait]
    exact ⟨rfl, hsim, hbuf, hfd⟩
  rw [feedChunkData_eq hsim.rest hcl (by rw [hlen, hbuf]) (by omega)]
  by_cases hcrlf : (l.drop n).take 2 ≠ CRLF
  · have hm : (decoder lim).step ⟨.chunkData n, p.req⟩ l = .fail := by
      change (if _ then _ else if _ then _ else _) = _
      rw [if_neg hshort, if_pos hcrlf]
    rw [Decoder.run_fail hm, if_pos hcrlf]
    exact rfl
  have hm : (decoder lim).step ⟨.chunkData n, p.req⟩ l =
      .eat (n + 2) ⟨.chunkSize, { p.req with body := p.req.body ++ l.take n }⟩ := by
    change (if _ then _ else if _ then _ else _) = _
    rw [if_neg hshort, if_neg hcrlf]
    rfl
  rw [Decoder.run_eat hm, if_neg hcrlf]
  -- the LF that ends the chunk stands before the next size line
  have hlf : p.buffer.data[p.pos + n + 1]? = some LF := by
    have htake : ((l.drop n).take 2)[1]? = some LF := by
      rw [not_not.mp hcrlf]
      rfl
    rw [List.getElem?_take_of_lt (by omega), List.getElem?_drop, ← hsim.rest,
      List.getElem?_drop] at htake
    rw [← htake]
    congr 1
  have hnd : p.state ≠ .done := by rw [hst]; decide
  dsimp only [behindChunk]
  rw [if_neg hnd]
  refine ih (by exact hbuf) (by exact hfd) ⟨?_, ?_, rfl, hsim.streaming, ?_⟩ hch hst ?_
  · rw [← hsim.rest, List.drop_drop]
    rfl
  · change p.pos + n + 2 ≤ p.buffer.data.length
    omega
  · exact ⟨hst, Or.inr hlf, hch, rfl⟩
  · rw [List.length_drop]
    omega

theorem feedChunks_sim (small : p₀.buffer.data.length < 2 ^ 62) (fuel : Nat) :
    ChunkRounds lim p₀ fuel := by
  induction fuel with
  | zero =>
    intro p s l hbuf hfd hsim _ _ hl
    obtain rfl : l = [] := List.eq_nil_of_length_eq_zero (by omega)
    rw [run_nil]
    exact ⟨hbuf, hfd, Or.inr ⟨s, rfl, hsim⟩⟩
  | succ fuel ih =>
    intro p s l hbuf hfd hsim hch hst hl
    have hlen := hsim.length
    rw [hbuf] at hlen
    rw [feedChunks]
    by_cases hnil : l = []
    · subst hnil
      rw [List.length_nil] at hlen
      rw [if_neg (by omega), run_nil]
      exact ⟨hbuf, hfd, Or.inr ⟨s, rfl, hsim⟩⟩
    have hpos : 0 < l.length := List.length_pos_iff.mpr hnil
    rw [if_pos (by omega)]
    have hphase := hsim.phase
    obtain ⟨ph, req⟩ := s
    cases ph with
    | requestLine => exact absurd (hphase.1.symm.trans hst) (by decide)
    | headers => exact absurd (hphase.1.symm.trans hst) (by decide)
    | finished => exact absurd hphase id
    | counted n => exact absurd (hphase.2.1.symm.trans hch) (by decide)
    | chunkSize =>
      rw [if_pos hphase.2.2.2]
      exact chunkSize_round (by rw [hbuf]; exact small) hbuf hfd hsim hl ih
    | chunkData n =>
      obtain ⟨-, -, hcl, hn⟩ := hphase
      rw [if_neg (by omega)]
      exact chunkData_round hbuf hfd hsim hl ih

end Chunks

section Loop

variable {lim : Limits} {p₀ p : HttpParser} {s : DecodeState} {l : Bytes}

theorem Sim.live (h : Sim lim p s l) : p.state ≠ .done ∧ p.state ≠ .error := by
  have hphase := h.phase
  obtain ⟨ph, req⟩ := s
  cases ph with
  | finished => exact absurd hphase id
  | _ => rw [hphase.1]; decide

/-- The parser behind the blank line, in the phase that the framing asks for. -/
def framed (p : HttpParser) (lineEnd : Nat) : Phase → HttpParser
  | .counted n =>
    { p with pos := lineEnd + 1, contentLength := n, chunked := false, state := .body }
  | .chunkSize =>
    { p with pos := lineEnd + 1, contentLength := 0, chunked := true, state := .body }
  | _ => { p with pos := lineEnd + 1, contentLength := 0, state := .done }

theorem feedEndOfHeaders_eq (hch : p.chunked = false) (hstream : p.streamingBody = false)
    (lineEnd : Nat) :
    feedEndOfHeaders lim p lineEnd = match decodeFraming lim p.req.headers with
      | none => parseError { p with pos := lineEnd + 1 }
      | some phase => .next (framed p lineEnd phase) := by
  unfold feedEndOfHeaders decodeFraming
  dsimp only
  cases hcl : shget p.req.headers (ascii "content-length") with
  | some value =>
    dsimp only
    by_cases hok : (strtoull value 10).erange = false ∧ (strtoull value 10).rest = [] ∧
        (strtoull value 10).value ≤ lim.maxBodySize
    · have hno : ¬ ((strtoull value 10).erange ∨ (strtoull value 10).rest ≠ [] ∨
          lim.maxBodySize < (strtoull value 10).value) := by
        rintro (h | h | h)
        · rw [hok.1] at h; cases h
        · exact h hok.2.1
        · exact absurd h (not_lt.mpr hok.2.2)
      rw [if_neg hno, if_pos hok]
      dsimp only
      by_cases h0 : (strtoull value 10).value = 0
      · simp [h0, framed, hch]
      · simp [h0, framed, hstream, Nat.pos_of_ne_zero h0]
    · rw [if_pos, if_neg hok]
      by_contra hnot
      simp only [not_or, not_lt, ne_eq, not_not, Bool.not_eq_true] at hnot
      exact hok hnot
  | none =>
    dsimp only
    cases hte : shget p.req.headers (ascii "transfer-encoding") with
    | none => simp [framed, hch]
    | some value =>
      dsimp only
      by_cases hc : strcaseeq value (ascii "chunked")
      · simp [hc, framed, hstream]
      · simp [hc, framed, hch]

theorem feedCountedBody_sim {n : Nat} (hbuf : p.buffer = p₀.buffer) (hfd : p.fd = p₀.fd)
    (hs : s.phase = .counted n) (h : Sim lim p s l) (hl : l ≠ []) :
    FlowMatches lim p₀ ((decoder lim).run s l)
      (feedCountedBody lim p₀.buffer.data.length p) := by
  have hlen := h.length
  have hpos : 0 < l.length := List.length_pos_iff.mpr hl
  have hphase := h.phase
  obtain ⟨ph, req⟩ := s
  obtain rfl : p.req = req := h.req
  obtain rfl : ph = .counted n := hs
  obtain ⟨hst, hch, hn, hcl, hmax⟩ := hphase
  have havail : p₀.buffer.data.length - p.pos = l.length := by rw [← hbuf]; omega
  have hrem : p.contentLength - p.req.body.length = n := by omega
  rw [run_counted lim p.req l n hn]
  unfold feedCountedBody
  simp only [havail, hrem, h.rest]
  have hsome : ¬ l.length = 0 := by omega
  rw [if_neg hsome]
  by_cases hcount : n ≤ l.length
  · have hmin : (if n < l.length then n else l.length) = n := by split <;> omega
    have hmax' : ¬ (lim.maxBodySize < n ∨ lim.maxBodySize - n < p.req.body.length) := by omega
    rw [hmin, if_neg hmax', if_pos hcount]
    have hfull : (p.req.body ++ l.take n).length = p.contentLength := by
      rw [List.length_append, List.length_take]
      omega
    rw [if_pos hfull]
    refine ⟨hbuf, hfd, Or.inl ⟨_, _, rfl, rfl, rfl, ?_, h.streaming⟩⟩
    rw [← h.rest, List.drop_drop]
  · have hmin : (if n < l.length then n else l.length) = l.length := by split <;> omega
    have hmax' : ¬ (lim.maxBodySize < l.length ∨
        lim.maxBodySize - l.length < p.req.body.length) := by omega
    rw [hmin, if_neg hmax', if_neg hcount, List.take_length]
    have hpart : (p.req.body ++ l).length ≠ p.contentLength := by
      rw [List.length_append]
      omega
    rw [if_neg hpart]
    refine ⟨hbuf, hfd, Or.inr ⟨_, rfl, ?_, ?_, rfl, h.streaming, hst, hch, by omega, ?_, hmax⟩⟩
    · change p.buffer.data.drop (p.pos + l.length) = []
      rw [hlen, List.drop_eq_nil_of_le (Nat.le_refl _)]
    · change p.pos + l.length ≤ p.buffer.data.length
      omega
    · change p.contentLength = (p.req.body ++ l).length + (n - l.length)
      rw [List.length_append]
      omega

/-- The loop ends in the round after a body flow that has not returned. -/
theorem feedBody_finish {o : Outcome DecodeState UInt8} {fuel : Nat} {flow : Flow}
    (h : FlowMatches lim p₀ o flow) :
    Matches lim p₀
      (match (match flow with
          | .ret p code => Flow.ret p code
          | .next p => if 0 < p.pos ∧ p.pos < p₀.buffer.data.length
              then .next { p with buffer := stringbufConsume p.buffer p.pos, pos := 0 }
              else .next p) with
        | .ret p code => (p, code)
        | .next p => feedLoop lim p₀.buffer.data.length (fuel + 1) p) o := by
  cases flow with
  | ret q code => exact h
  | next q =>
    obtain ⟨hbuf, hfd, ⟨s, l, rfl, hdone⟩ | ⟨s, rfl, hsim⟩⟩ := h
    · dsimp only
      split
      · rename_i hshift
        split at hshift
        · cases hshift
        · cases hshift
      · rename_i q' hnext
        have hq : q'.state = .done ∧ q'.req = s.req ∧ q'.buffer.data.drop q'.pos = l ∧
            q'.streamingBody = false ∧ q'.fd = p₀.fd := by
          split at hnext
          · cases hnext
            exact ⟨hdone.state, hdone.req, (consume_rest q).trans hdone.rest, hdone.streaming, hfd⟩
          · cases hnext
            exact ⟨hdone.state, hdone.req, hdone.rest, hdone.streaming, hfd⟩
        rw [feedLoop, if_neg (fun hc => hc.1 hq.1), hq.1]
        exact ⟨rfl, ⟨hq.1, hq.2.1, hq.2.2.1, hq.2.2.2.1⟩, hq.2.2.2.2⟩
    · have hend : ¬ q.pos < p₀.buffer.data.length := by
        have := hsim.length
        rw [hbuf] at this
        simp only [List.length_nil] at this
        omega
      dsimp only
      rw [if_neg (fun hc => hend hc.2)]
      dsimp only
      rw [feedLoop, if_neg (fun hc => hend hc.2.2)]
      have hlive := hsim.live
      refine ⟨?_, hsim, hbuf, hfd⟩
      cases hst : q.state <;> simp_all

theorem decodeRequestLine_body {line : Bytes} {req : HttpRequest}
    (h : decodeRequestLine lim line = some req) : req.body = [] := by
  unfold decodeRequestLine at h
  dsimp only at h
  split at h
  · cases h
    rfl
  · cases h

/-- The rounds behind the blank line: either the message is complete, or the loop
goes on in the phase that the framing has chosen. -/
theorem feedLoop_framed {line rest : Bytes} {fuel : Nat} {ph : Phase}
    (hfd : p.fd = p₀.fd)
    (hframe : decodeFraming lim p.req.headers = some ph)
    (hm : (decoder lim).step ⟨.headers, p.req⟩ (line ++ LF :: rest) =
      enter (line.length + 1) p.req ph)
    (hnext : AtLineStart (framed p (p.pos + line.length) ph))
    (hrest : (framed p (p.pos + line.length) ph).buffer.data.drop
      (framed p (p.pos + line.length) ph).pos = rest)
    (hbound : (framed p (p.pos + line.length) ph).pos ≤
      (framed p (p.pos + line.length) ph).buffer.data.length)
    (hbody : p.req.body = []) (hstream : p.streamingBody = false)
    (ih : Sim lim (framed p (p.pos + line.length) ph) ⟨ph, p.req⟩ rest →
      Matches lim p₀ (feedLoop lim p₀.buffer.data.length fuel
        (framed p (p.pos + line.length) ph)) ((decoder lim).run ⟨ph, p.req⟩ rest))
    (hl : (line ++ LF :: rest).length < fuel + 1) :
    Matches lim p₀ (feedLoop lim p₀.buffer.data.length fuel (framed p (p.pos + line.length) ph))
      ((decoder lim).run ⟨.headers, p.req⟩ (line ++ LF :: rest)) := by
  have hcases : ph = .finished ∨ ph = .chunkSize ∨
      ∃ n, ph = .counted n ∧ 0 < n ∧ n ≤ lim.maxBodySize := by
    unfold decodeFraming at hframe
    split at hframe
    · dsimp only at hframe
      split at hframe
      · rename_i hok
        cases hframe
        split
        · exact Or.inl rfl
        · rename_i h0
          exact Or.inr (Or.inr ⟨_, rfl, Nat.pos_of_ne_zero h0, hok.2.2⟩)
      · cases hframe
    · split at hframe
      · split at hframe
        · cases hframe
          exact Or.inr (Or.inl rfl)
        · cases hframe
          exact Or.inl rfl
      · cases hframe
        exact Or.inl rfl
  rcases hcases with rfl | rfl | ⟨n, rfl, hn, hmax⟩
  · rw [Decoder.run_done hm, drop_line]
    obtain ⟨fuel, rfl⟩ : ∃ k, fuel = k + 1 := ⟨fuel - 1, by
      simp only [List.length_append, List.length_cons] at hl
      omega⟩
    rw [feedLoop, if_neg (fun hc => hc.1 rfl)]
    exact ⟨rfl, ⟨rfl, rfl, hrest, hstream⟩, hfd⟩
  · rw [Decoder.run_eat hm, drop_line]
    exact ih ⟨hrest, hbound, rfl, hstream, rfl, hnext, rfl, rfl⟩
  · rw [Decoder.run_eat hm, drop_line]
    refine ih ⟨hrest, hbound, rfl, hstream, rfl, rfl, hn, ?_, hmax⟩
    change n = p.req.body.length + n
    rw [hbody, List.length_nil, Nat.zero_add]

/-- What is known of the rounds that are left. -/
def Rounds (lim : Limits) (p₀ : HttpParser) (fuel : Nat) : Prop :=
  ∀ {p : HttpParser} {s : DecodeState} {l : Bytes}, p.buffer = p₀.buffer → p.fd = p₀.fd →
    Sim lim p s l → l.length < fuel →
    Matches lim p₀ (feedLoop lim p₀.buffer.data.length fuel p) ((decoder lim).run s l)

/-- The loop behind one pass. -/
def behindPass (lim : Limits) (p₀ : HttpParser) (fuel : Nat) : Flow → HttpParser × Int
  | .ret p code => (p, code)
  | .next p => feedLoop lim p₀.buffer.data.length fuel p

theorem requestLine_round {req : HttpRequest} {fuel : Nat} (sane : Sane lim)
    (small : p.buffer.data.length < 2 ^ 62) (hbuf : p.buffer = p₀.buffer) (hfd : p.fd = p₀.fd)
    (hsim : Sim lim p ⟨.requestLine, req⟩ l) (hl : l.length < fuel + 1)
    (ih : Rounds lim p₀ fuel) :
    Matches lim p₀ (behindPass lim p₀ fuel (feedRequestLine lim p))
      ((decoder lim).run ⟨.requestLine, req⟩ l) := by
  obtain ⟨-, hstart, hch, hempty⟩ := hsim.phase
  cases hline : line? l with
  | none =>
    have hm := step_no_line lim (s := ⟨.requestLine, req⟩) (Or.inl rfl) hline
    have hnone : feedRequestLine lim p = .ret p 0 := by
      rw [feedRequestLine, stringbufMemchr_eq, memchr_lf_none (by rw [hsim.rest]; exact hline)]
    rw [Decoder.run_more hm, hnone]
    exact ⟨rfl, hsim, hbuf, hfd⟩
  | some line =>
    obtain ⟨rest, rfl, hlf⟩ := line?_split hline
    have hd := hsim.rest
    have hm := step_line lim (s := ⟨.requestLine, req⟩) (Or.inl rfl) hline
    simp only [moveLine] at hm
    cases hdec : decodeRequestLine lim line with
    | none =>
      obtain ⟨q, hq⟩ := feedRequestLine_none sane hd hlf hstart small hdec
      rw [hdec] at hm
      rw [Decoder.run_fail hm, hq]
      exact rfl
    | some req' =>
      obtain ⟨hnext, hrest, hbound⟩ := atLineStart_next (q :=
        { p with req := req', pos := p.pos + line.length + 1, state := .headers }) hd rfl rfl
      rw [hdec] at hm
      rw [Decoder.run_eat hm, feedRequestLine_some hd hlf hstart small hempty hdec, drop_line]
      refine ih (by exact hbuf) (by exact hfd)
        ⟨hrest, hbound, rfl, hsim.streaming, rfl, hnext, hch, ?_⟩ ?_
      · exact decodeRequestLine_body hdec
      · simp only [List.length_append, List.length_cons] at hl
        omega

/-- The blank line. -/
theorem blankLine_round {line rest : Bytes} {req : HttpRequest} {fuel : Nat}
    (small : p.buffer.data.length < 2 ^ 62) (hbuf : p.buffer = p₀.buffer) (hfd : p.fd = p₀.fd)
    (hsim : Sim lim p ⟨.headers, req⟩ (line ++ LF :: rest)) (hlf : LF ∉ line)
    (hblank : chomp line = []) (hl : (line ++ LF :: rest).length < fuel + 1)
    (ih : Rounds lim p₀ fuel) :
    Matches lim p₀ (behindPass lim p₀ fuel (feedHeaderLine lim p))
      ((decoder lim).run ⟨.headers, req⟩ (line ++ LF :: rest)) := by
  obtain ⟨-, hstart, hch, hbody⟩ := hsim.phase
  obtain rfl : p.req = req := hsim.req
  have hd := hsim.rest
  have hm := step_line lim (s := ⟨.headers, p.req⟩) (Or.inr (Or.inl rfl)) (line?_line hlf rest)
  simp only [moveLine] at hm
  rw [feedHeaderLine_blank hd hlf hstart small hblank]
  by_cases hlong : lim.maxHeaderLineSize < line.length
  · rw [if_pos hlong] at hm
    rw [Decoder.run_fail hm, if_pos hlong]
    exact rfl
  rw [if_neg hlong, if_pos hblank] at hm
  rw [if_neg hlong, feedEndOfHeaders_eq hch hsim.streaming]
  cases hframe : decodeFraming lim p.req.headers with
  | none =>
    rw [hframe] at hm
    rw [Decoder.run_fail hm]
    exact rfl
  | some ph =>
    rw [hframe] at hm
    have hshorter : rest.length < fuel := by
      simp only [List.length_append, List.length_cons] at hl
      omega
    obtain ⟨hnext, hrest, hbound⟩ := atLineStart_next (q := framed p (p.pos + line.length) ph)
      hd (by cases ph <;> rfl) (by cases ph <;> rfl)
    exact feedLoop_framed hfd hframe hm hnext hrest hbound hbody hsim.streaming
      (fun h => ih (by cases ph <;> exact hbuf) (by cases ph <;> exact hfd) h hshorter) hl

/-- Any other line behind the first. -/
theorem headerLine_round {line rest : Bytes} {req : HttpRequest} {fuel : Nat} (sane : Sane lim)
    (small : p.buffer.data.length < 2 ^ 62) (hbuf : p.buffer = p₀.buffer) (hfd : p.fd = p₀.fd)
    (hsim : Sim lim p ⟨.headers, req⟩ (line ++ LF :: rest)) (hlf : LF ∉ line)
    (hblank : chomp line ≠ []) (hl : (line ++ LF :: rest).length < fuel + 1)
    (ih : Rounds lim p₀ fuel) :
    Matches lim p₀ (behindPass lim p₀ fuel (feedHeaderLine lim p))
      ((decoder lim).run ⟨.headers, req⟩ (line ++ LF :: rest)) := by
  obtain ⟨hst, hstart, hch, hbody⟩ := hsim.phase
  obtain rfl : p.req = req := hsim.req
  have hd := hsim.rest
  have hm := step_line lim (s := ⟨.headers, p.req⟩) (Or.inr (Or.inl rfl)) (line?_line hlf rest)
  simp only [moveLine] at hm
  by_cases hlong : lim.maxHeaderLineSize < line.length
  · have hdec : decodeHeaderLine lim p.req.headers line = none := by
      rw [decodeHeaderLine, if_neg (fun hc => absurd hc.1 (by omega))]
    obtain ⟨q, hq⟩ := feedHeaderLine_none sane hd hlf hstart small hblank hdec
    rw [if_pos hlong] at hm
    rw [Decoder.run_fail hm, hq]
    exact rfl
  rw [if_neg hlong, if_neg hblank] at hm
  cases hdec : decodeHeaderLine lim p.req.headers line with
  | none =>
    obtain ⟨q, hq⟩ := feedHeaderLine_none sane hd hlf hstart small hblank hdec
    rw [hdec] at hm
    rw [Decoder.run_fail hm, hq]
    exact rfl
  | some hs =>
    obtain ⟨hnext, hrest, hbound⟩ := atLineStart_next (q :=
      { p with req := { p.req with headers := hs }, pos := p.pos + line.length + 1 }) hd rfl rfl
    rw [hdec] at hm
    rw [Decoder.run_eat hm, feedHeaderLine_some sane hd hlf hstart small hblank hdec, drop_line]
    refine ih (by exact hbuf) (by exact hfd)
      ⟨hrest, hbound, rfl, hsim.streaming, hst, hnext, hch, hbody⟩ ?_
    simp only [List.length_append, List.length_cons] at hl
    omega

theorem headers_round {req : HttpRequest} {fuel : Nat} (sane : Sane lim)
    (small : p.buffer.data.length < 2 ^ 62) (hbuf : p.buffer = p₀.buffer) (hfd : p.fd = p₀.fd)
    (hsim : Sim lim p ⟨.headers, req⟩ l) (hl : l.length < fuel + 1) (ih : Rounds lim p₀ fuel) :
    Matches lim p₀ (behindPass lim p₀ fuel (feedHeaderLine lim p))
      ((decoder lim).run ⟨.headers, req⟩ l) := by
  cases hline : line? l with
  | none =>
    have hm := step_no_line lim (s := ⟨.headers, req⟩) (Or.inr (Or.inl rfl)) hline
    have hnone : feedHeaderLine lim p = .ret p 0 := by
      rw [feedHeaderLine_eq, headerPass_wait (by rw [hsim.rest]; exact hline)]
    rw [Decoder.run_more hm, hnone]
    exact ⟨rfl, hsim, hbuf, hfd⟩
  | some line =>
    obtain ⟨rest, rfl, hlf⟩ := line?_split hline
    by_cases hblank : chomp line = []
    · exact blankLine_round small hbuf hfd hsim hlf hblank hl ih
    · exact headerLine_round sane small hbuf hfd hsim hlf hblank hl ih

theorem feedLoop_sim (sane : Sane lim) (small : p₀.buffer.data.length < 2 ^ 62) (fuel : Nat) :
    Rounds lim p₀ fuel := by
  induction fuel with
  | zero =>
    intro p s l _ _ _ hl
    omega
  | succ fuel ih =>
    intro p s l hbuf hfd hsim hl
    have hlen := hsim.length
    have hlive := hsim.live
    rw [hbuf] at hlen
    rw [feedLoop]
    by_cases hnil : l = []
    · subst hnil
      rw [List.length_nil] at hlen
      rw [if_neg (fun hc => absurd hc.2.2 (by omega)), run_nil]
      refine ⟨?_, hsim, hbuf, hfd⟩
      cases hst : p.state <;> simp_all
    have hpos : 0 < l.length := List.length_pos_iff.mpr hnil
    rw [if_pos ⟨hlive.1, hlive.2, by omega⟩]
    have hphase := hsim.phase
    obtain ⟨ph, req⟩ := s
    have hsmall : p.buffer.data.length < 2 ^ 62 := by rw [hbuf]; exact small
    cases ph with
    | finished => exact absurd hphase id
    | requestLine =>
      simp only [hphase.1]
      exact requestLine_round sane hsmall hbuf hfd hsim hl ih
    | headers =>
      simp only [hphase.1]
      exact headers_round sane hsmall hbuf hfd hsim hl ih
    | counted n =>
      obtain ⟨hst, hch, -⟩ := hphase
      obtain ⟨fuel, rfl⟩ : ∃ k, fuel = k + 1 := ⟨fuel - 1, by omega⟩
      simp only [hst, feedBody, hch, Bool.not_false, if_true]
      exact feedBody_finish (feedCountedBody_sim hbuf hfd rfl hsim hnil)
    | chunkSize =>
      obtain ⟨hst, -, hch, -⟩ := hphase
      obtain ⟨fuel, rfl⟩ : ∃ k, fuel = k + 1 := ⟨fuel - 1, by omega⟩
      simp only [hst, feedBody, hch, Bool.not_true, Bool.false_eq_true, if_false]
      exact feedBody_finish (feedChunks_sim small _ hbuf hfd hsim hch hst (by omega))
    | chunkData n =>
      obtain ⟨hst, hch, -⟩ := hphase
      obtain ⟨fuel, rfl⟩ : ∃ k, fuel = k + 1 := ⟨fuel - 1, by omega⟩
      simp only [hst, feedBody, hch, Bool.not_true, Bool.false_eq_true, if_false]
      exact feedBody_finish (feedChunks_sim small _ hbuf hfd hsim hch hst (by omega))

/-- One call of `http_parser_feed` is one run of the decoder over the input joined to
what was unread. -/
theorem feed_sim_append (sane : Sane lim) (h : Sim lim p s l) {data : Bytes} {sb : StringBuf}
    (happ : stringbufAppend p.buffer data = some sb) (hdata : sb.data = p.buffer.data ++ data)
    (small : sb.data.length < 2 ^ 62) :
    Matches lim { p with buffer := sb } (httpParserFeed lim p data)
      ((decoder lim).run s (l ++ data)) := by
  have hbound := h.bound
  have hsim : Sim lim { p with buffer := sb } s (l ++ data) := by
    refine ⟨?_, ?_, h.req, h.streaming, ?_⟩
    · change sb.data.drop p.pos = _
      rw [hdata, List.drop_append_of_le_length hbound, h.rest]
    · change p.pos ≤ sb.data.length
      rw [hdata, List.length_append]
      omega
    · have hstart : AtLineStart p → AtLineStart { p with buffer := sb } := by
        rintro (h0 | hlf)
        · exact Or.inl h0
        · refine Or.inr ?_
          change sb.data[p.pos - 1]? = some LF
          rw [hdata, List.getElem?_append_left (List.getElem?_eq_some_iff.mp hlf).1]
          exact hlf
      have hphase := h.phase
      obtain ⟨ph, req⟩ := s
      cases ph with
      | finished => exact hphase
      | requestLine => exact ⟨hphase.1, hstart hphase.2.1, hphase.2.2⟩
      | headers => exact ⟨hphase.1, hstart hphase.2.1, hphase.2.2⟩
      | chunkSize => exact ⟨hphase.1, hstart hphase.2.1, hphase.2.2⟩
      | counted n => exact hphase
      | chunkData n => exact hphase
  rw [httpParserFeed, happ]
  refine @feedLoop_sim lim { p with buffer := sb } sane small _ _ _ _ rfl rfl hsim ?_
  change (l ++ data).length < sb.data.length + 1
  have := h.length
  rw [hdata, List.length_append, List.length_append]
  omega

theorem feed_sim (sane : Sane lim) (h : Sim lim p s l) (hb : Doubling p.buffer) {data : Bytes}
    (nonempty : data ≠ []) (bounded : data.length ≤ STRINGBUF_DEFAULT_CAP)
    (room : p.buffer.size + data.length < STRINGBUF_MAX_CAP) :
    ∃ sb, sb.data = p.buffer.data ++ data ∧ Doubling sb ∧
      Matches lim { p with buffer := sb } (httpParserFeed lim p data)
        ((decoder lim).run s (l ++ data)) := by
  obtain ⟨sb, happ, hdata, hdbl⟩ := stringbufAppend_doubling hb nonempty bounded room
  have hlen : sb.data.length < STRINGBUF_MAX_CAP := by
    rw [hdata, List.length_append]
    exact room
  have hcap : STRINGBUF_MAX_CAP < 2 ^ 62 := by decide
  exact ⟨sb, hdata, hdbl, feed_sim_append sane h happ hdata (by omega)⟩

theorem init_sim (lim : Limits) (fd : Nat) : Sim lim (httpParserInit fd) .start [] :=
  ⟨rfl, Nat.le_refl _, rfl, rfl, rfl, Or.inl rfl, rfl, rfl⟩

end Loop

end ParserRefinement
