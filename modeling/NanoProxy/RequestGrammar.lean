import NanoProxy.ParserRefinement

/-!
# Decoding lines that were written by the grammar

The lemmas that undo one piece of a request at a time: a line, its terminator, a
request line, a header line, a number. They are stated for any bytes that the
pieces can hold, since the proxy also writes back names and values of its clients.
-/

namespace RequestGrammar

open CLib HttpRequestParser RequestDecoder ParserRefinement Incremental

/-- No white space at either end. -/
def Trimmed (v : Bytes) : Prop :=
  (∀ b, v.head? = some b → isspace b = false) ∧ (∀ b, v.getLast? = some b → isspace b = false)

theorem takeWhile_append_stop {a b : Bytes} {c : UInt8} (h : c ∉ a) :
    (a ++ c :: b).takeWhile (· != c) = a := by
  induction a with
  | nil => simp
  | cons x a ih =>
    have hx : x ≠ c := fun heq => h (heq ▸ List.mem_cons_self)
    have hrest : c ∉ a := fun hmem => h (List.mem_cons_of_mem x hmem)
    simp [hx, ih hrest]

theorem cstr_eq_self {s : Bytes} (h : (0 : UInt8) ∉ s) : cstr s = s := by
  rw [cstr, List.takeWhile_eq_self_iff]
  intro b hb
  simpa using fun heq : b = 0 => h (heq ▸ hb)

theorem chomp_crlf (line : Bytes) : chomp (line ++ [CR]) = line := by
  simp [chomp]

theorem trim_eq_self {v : Bytes} (h : Trimmed v) : trim v = v := by
  have hdrop : v.dropWhile isspace = v := by
    cases v with
    | nil => rfl
    | cons b v => rw [List.dropWhile_cons_of_neg (by simp [h.1 b rfl])]
  rw [trim, hdrop, List.rdropWhile_eq_self_iff]
  intro hne
  simp [h.2 _ (List.getLast?_eq_getLast_of_ne_nil hne)]

/-- White space around a trimmed text is dropped. -/
theorem trim_padded {before v after : Bytes} (white : ∀ b ∈ before, isspace b = true)
    (white' : ∀ b ∈ after, isspace b = true) (trimmed : Trimmed v) :
    trim (before ++ (v ++ after)) = v := by
  have key := trim_eq_self trimmed
  unfold trim at key ⊢
  rw [List.dropWhile_append, List.dropWhile_eq_nil_iff.mpr white, List.isEmpty_nil, if_pos rfl]
  cases v with
  | nil =>
    rw [List.nil_append, List.dropWhile_eq_nil_iff.mpr white']
    rfl
  | cons b v =>
    have solid : isspace b = false := trimmed.1 b rfl
    rw [List.dropWhile_cons_of_neg (by simp [solid])] at key
    rw [List.cons_append, List.dropWhile_cons_of_neg (by simp [solid]), ← List.cons_append]
    rw [List.rdropWhile, List.reverse_append, List.dropWhile_append,
      List.dropWhile_eq_nil_iff.mpr (fun x hx => white' x (List.mem_reverse.mp hx)),
      List.isEmpty_nil, if_pos rfl]
    exact key

theorem trim_trimmed (s : Bytes) : Trimmed (trim s) := by
  constructor
  · intro b hb
    have hpre := List.rdropWhile_prefix isspace (s.dropWhile isspace)
    obtain ⟨t, ht⟩ := hpre
    have hne : s.dropWhile isspace ≠ [] := by
      intro hnil
      rw [trim, hnil] at hb
      simp at hb
    have hhead : (s.dropWhile isspace).head? = some b := by
      rw [← ht, List.head?_append, show (s.dropWhile isspace).rdropWhile isspace = trim s from rfl,
        hb]
      rfl
    have hnot := List.head_dropWhile_not isspace hne
    rw [List.head?_eq_some_head hne] at hhead
    rw [← Option.some.inj hhead]
    simpa using hnot
  · intro b hb
    have hne : (s.dropWhile isspace).rdropWhile isspace ≠ [] := by
      intro hnil
      rw [trim, hnil] at hb
      simp at hb
    have hnot := List.rdropWhile_last_not isspace (s.dropWhile isspace) hne
    rw [trim, List.getLast?_eq_getLast_of_ne_nil hne] at hb
    rw [← Option.some.inj hb]
    simpa using hnot

section Lines

variable {lim : Limits}

/-- The text of a request line, without its terminator. -/
def requestLineText (method uri version : Bytes) : Bytes :=
  method ++ SP :: (uri ++ SP :: version)

/-- The parts of a request line that can be read back. -/
structure ReadableStart (lim : Limits) (method uri version : Bytes) : Prop where
  method_ne : method ≠ []
  method_bytes : SP ∉ method ∧ (0 : UInt8) ∉ method ∧ LF ∉ method
  method_fits : method.length ≤ lim.maxMethodSize
  uri_ne : uri ≠ []
  uri_bytes : SP ∉ uri ∧ (0 : UInt8) ∉ uri ∧ LF ∉ uri
  uri_fits : uri.length ≤ lim.maxUrlSize
  version_ne : version ≠ []
  version_bytes : (0 : UInt8) ∉ version ∧ LF ∉ version
  version_fits : version.length ≤ lim.maxHttpVersionSize
  line_fits : method.length + uri.length + version.length + 3 ≤ lim.maxHeaderLineSize

/-- What the limits say about the pieces of a request line. -/
def StartFits (lim : Limits) (method uri version : Bytes) : Prop :=
  method.length + uri.length + version.length + 3 ≤ lim.maxHeaderLineSize ∧
    (0 < method.length ∧ method.length ≤ lim.maxMethodSize) ∧
    (0 < uri.length ∧ uri.length ≤ lim.maxUrlSize) ∧
    0 < version.length ∧ version.length ≤ lim.maxHttpVersionSize

instance (method uri version : Bytes) : Decidable (StartFits lim method uri version) :=
  inferInstanceAs (Decidable (_ ∧ _))

theorem decodeRequestLine_plain {method uri version : Bytes}
    (method_bytes : SP ∉ method ∧ (0 : UInt8) ∉ method)
    (uri_bytes : SP ∉ uri ∧ (0 : UInt8) ∉ uri) (version_bytes : (0 : UInt8) ∉ version) :
    decodeRequestLine lim (requestLineText method uri version ++ [CR]) =
      if StartFits lim method uri version
      then some { HttpRequest.empty with method := some method, uri := some uri,
                                         version := some version }
      else none := by
  set text := requestLineText method uri version with htext
  have hline' : text ++ [CR] = method ++ SP :: (uri ++ SP :: (version ++ [CR])) := by
    simp [htext, requestLineText]
  have h1 : (text ++ [CR]).takeWhile (· != SP) = method := by
    rw [hline', takeWhile_append_stop method_bytes.1]
  have h2 : (text ++ [CR]).drop (method.length + 1) = uri ++ SP :: (version ++ [CR]) := by
    rw [hline', ← List.drop_drop, List.drop_left' rfl]
    rfl
  have h3 : (uri ++ SP :: (version ++ [CR])).takeWhile (· != SP) = uri :=
    takeWhile_append_stop uri_bytes.1
  have h4 : text.drop (method.length + 1 + uri.length + 1) = version := by
    have hpos : method.length + 1 + uri.length + 1 = (method ++ SP :: (uri ++ [SP])).length := by
      simp only [List.length_append, List.length_cons, List.length_nil]
      omega
    have hsplit : text = (method ++ SP :: (uri ++ [SP])) ++ version := by
      simp [htext, requestLineText]
    rw [hpos, hsplit, List.drop_left' rfl]
  have hlen : text.length = method.length + uri.length + version.length + 2 := by
    simp only [htext, requestLineText, List.length_append, List.length_cons]
    omega
  unfold decodeRequestLine
  simp only [h1, h2, h3, chomp_crlf, h4, cstr_eq_self method_bytes.2, cstr_eq_self uri_bytes.2,
    cstr_eq_self version_bytes]
  refine if_congr ?_ rfl rfl
  unfold StartFits
  simp only [List.length_append, List.length_cons, List.length_nil]
  omega

theorem decodeRequestLine_text {method uri version : Bytes}
    (h : ReadableStart lim method uri version) :
    decodeRequestLine lim (requestLineText method uri version ++ [CR]) =
      some { HttpRequest.empty with method := some method, uri := some uri,
                                    version := some version } := by
  have fits : StartFits lim method uri version :=
    ⟨h.line_fits, ⟨List.length_pos_iff.mpr h.method_ne, h.method_fits⟩,
      ⟨List.length_pos_iff.mpr h.uri_ne, h.uri_fits⟩,
      List.length_pos_iff.mpr h.version_ne, h.version_fits⟩
  rw [decodeRequestLine_plain ⟨h.method_bytes.1, h.method_bytes.2.1⟩
    ⟨h.uri_bytes.1, h.uri_bytes.2.1⟩ h.version_bytes.1, if_pos fits]

/-- The text of a header line, without its terminator. -/
def headerLineText (name value : Bytes) : Bytes := name ++ COLON :: SP :: value

/-- A header that can be read back. -/
structure Readable (lim : Limits) (name value : Bytes) : Prop where
  name_ne : name ≠ []
  name_bytes : COLON ∉ name ∧ (0 : UInt8) ∉ name ∧ LF ∉ name
  name_trimmed : Trimmed name
  name_fits : name.length ≤ lim.maxHeaderNameSize
  value_bytes : (0 : UInt8) ∉ value ∧ LF ∉ value
  value_trimmed : Trimmed value
  value_fits : value.length ≤ lim.maxHeaderValueSize
  line_fits : name.length + value.length + 3 ≤ lim.maxHeaderLineSize

/-- The name and the value that any header line is taken to hold. -/
def fieldName (line : Bytes) : Bytes := trim (line.takeWhile (· != COLON))

def fieldValue (line : Bytes) : Bytes :=
  trim (line.drop ((line.takeWhile (· != COLON)).length + 1))

/-- What the table is given for a header line. -/
def lineEntry (line : Bytes) : Bytes × Bytes :=
  (lower (cstr (fieldName line)), cstr (fieldValue line))

/-- What the limits say about a header line. -/
def LineFits (lim : Limits) (line : Bytes) : Prop :=
  line.length ≤ lim.maxHeaderLineSize ∧ COLON ∈ line ∧
    (0 < (fieldName line).length ∧ (fieldName line).length ≤ lim.maxHeaderNameSize) ∧
    (fieldValue line).length ≤ lim.maxHeaderValueSize

instance (line : Bytes) : Decidable (LineFits lim line) := inferInstanceAs (Decidable (_ ∧ _))

theorem decodeHeaderLine_entry (hs : Headers) (line : Bytes) :
    decodeHeaderLine lim hs line =
      if LineFits lim line ∧
          (shputs hs (lineEntry line).1 (lineEntry line).2).length ≤ lim.maxHeaders
      then some (shputs hs (lineEntry line).1 (lineEntry line).2) else none := by
  rw [decodeHeaderLine]
  refine if_congr ?_ rfl rfl
  have colon := takeWhile_length_lt_iff (l := line) (c := COLON)
  constructor
  · rintro ⟨long, found, name, value, count⟩
    exact ⟨⟨long, colon.mp found, name, value⟩, count⟩
  · rintro ⟨⟨long, found, name, value⟩, count⟩
    exact ⟨long, colon.mpr found, name, value, count⟩

/-- A header line with white space around its value. -/
theorem field_padded {name before value after : Bytes} (name_bytes : COLON ∉ name)
    (name_trimmed : Trimmed name) (white : ∀ b ∈ before, isspace b = true)
    (white' : ∀ b ∈ after, isspace b = true) (value_trimmed : Trimmed value) :
    fieldName (name ++ COLON :: (before ++ (value ++ after))) = name ∧
      fieldValue (name ++ COLON :: (before ++ (value ++ after))) = value := by
  have h1 : (name ++ COLON :: (before ++ (value ++ after))).takeWhile (· != COLON) = name :=
    takeWhile_append_stop name_bytes
  have h2 : (name ++ COLON :: (before ++ (value ++ after))).drop (name.length + 1) =
      before ++ (value ++ after) := by
    rw [← List.drop_drop, List.drop_left' rfl]
    rfl
  rw [fieldName, fieldValue, h1, h2]
  exact ⟨trim_eq_self name_trimmed, trim_padded white white' value_trimmed⟩

theorem decodeHeaderLine_text (hs : Headers) {name value : Bytes} (h : Readable lim name value)
    (count : (shputs hs (lower name) value).length ≤ lim.maxHeaders) :
    decodeHeaderLine lim hs (headerLineText name value ++ [CR]) =
      some (shputs hs (lower name) value) := by
  have hline' : headerLineText name value ++ [CR] =
      name ++ COLON :: ([SP] ++ (value ++ [CR])) := by simp [headerLineText]
  have hsp : ∀ b ∈ [SP], isspace b = true := List.forall_mem_singleton.mpr (by decide)
  have hcr : ∀ b ∈ [CR], isspace b = true := List.forall_mem_singleton.mpr (by decide)
  obtain ⟨hname, hvalue⟩ := field_padded h.name_bytes.1 h.name_trimmed hsp hcr h.value_trimmed
  rw [← hline'] at hname hvalue
  have hlen : (headerLineText name value ++ [CR]).length = name.length + value.length + 3 := by
    simp only [headerLineText, List.length_append, List.length_cons, List.length_nil]
    omega
  have hentry : lineEntry (headerLineText name value ++ [CR]) = (lower name, value) := by
    rw [lineEntry, hname, hvalue, cstr_eq_self h.name_bytes.2.1, cstr_eq_self h.value_bytes.1]
  have hfits : LineFits lim (headerLineText name value ++ [CR]) := by
    refine ⟨by rw [hlen]; exact h.line_fits, by simp [headerLineText], ?_, ?_⟩
    · rw [hname]
      exact ⟨List.length_pos_iff.mpr h.name_ne, h.name_fits⟩
    · rw [hvalue]
      exact h.value_fits
  rw [decodeHeaderLine_entry, hentry, if_pos ⟨hfits, count⟩]

end Lines

def keys (hs : Headers) : List Bytes := hs.map Prod.fst

theorem shputs_new {hs : Headers} {k v : Bytes} (h : k ∉ keys hs) :
    shputs hs k v = hs ++ [(k, v)] := by
  induction hs with
  | nil => rfl
  | cons e hs ih =>
    obtain ⟨k', v'⟩ := e
    simp only [keys, List.map_cons, List.mem_cons, not_or] at h
    rw [shputs, if_neg (fun heq => h.1 heq.symm), ih h.2]
    rfl

theorem shget_none {hs : Headers} {k : Bytes} (h : k ∉ keys hs) : shget hs k = none := by
  rw [shget, List.find?_eq_none.mpr]
  · rfl
  · intro e he hk
    exact h (List.mem_map.mpr ⟨e, he, by simpa using hk⟩)

theorem shget_mem {hs : Headers} {k v : Bytes} (h : shget hs k = some v) : (k, v) ∈ hs := by
  rw [shget, Option.map_eq_some_iff] at h
  obtain ⟨e, he, rfl⟩ := h
  have hk := List.find?_some he
  simp only [beq_iff_eq] at hk
  rw [← hk]
  exact List.mem_of_find?_eq_some he

theorem shget_of_mem {hs : Headers} {k v : Bytes} (nodup : (keys hs).Nodup) (h : (k, v) ∈ hs) :
    shget hs k = some v := by
  induction hs with
  | nil => cases h
  | cons e hs ih =>
    obtain ⟨k', v'⟩ := e
    rw [keys, List.map_cons, List.nodup_cons] at nodup
    rcases List.mem_cons.mp h with heq | hmem
    · cases heq
      simp [shget]
    · have hne : k' ≠ k := by
        rintro rfl
        exact nodup.1 (List.mem_map.mpr ⟨(k', v), hmem, rfl⟩)
      rw [← ih nodup.2 hmem]
      simp [shget, hne]

theorem shget_shputs (hs : Headers) (k v key : Bytes) :
    shget (shputs hs k v) key = if k = key then some v else shget hs key := by
  induction hs with
  | nil =>
    by_cases same : k = key
    · simp [shget, shputs, same]
    · simp [shget, shputs, same]
  | cons e hs ih =>
    obtain ⟨k', v'⟩ := e
    rw [shputs]
    split
    · rename_i found
      subst found
      by_cases same : k' = key
      · simp [shget, same]
      · simp [shget, same]
    · rename_i differs
      by_cases here : k' = key
      · have other : k ≠ key := fun same => differs (here.trans same.symm)
        simp [shget, here, other]
      · rw [← show shget ((k', v') :: hs) key = shget hs key by simp [shget, here]] at ih
        rw [← ih]
        simp [shget, here]

theorem shputs_length (hs : Headers) (k v : Bytes) :
    hs.length ≤ (shputs hs k v).length ∧ (shputs hs k v).length ≤ hs.length + 1 := by
  induction hs with
  | nil => exact ⟨Nat.zero_le _, Nat.le_refl _⟩
  | cons e hs ih =>
    obtain ⟨k', v'⟩ := e
    rw [shputs]
    split
    · exact ⟨Nat.le_refl _, Nat.le_succ _⟩
    · exact ⟨Nat.succ_le_succ ih.1, Nat.succ_le_succ ih.2⟩

/-- The table behind a sequence of header lines. -/
def shputAll (hs : Headers) (entries : List (Bytes × Bytes)) : Headers :=
  entries.foldl (fun hs e => shputs hs e.1 e.2) hs

/-- The values that a key is given, in order. -/
def valuesOf (entries : List (Bytes × Bytes)) (key : Bytes) : List Bytes :=
  (entries.filter fun e => e.1 == key).map Prod.snd

theorem shputAll_length (entries : List (Bytes × Bytes)) (hs : Headers) :
    hs.length ≤ (shputAll hs entries).length := by
  induction entries generalizing hs with
  | nil => exact Nat.le_refl _
  | cons e entries ih => exact (shputs_length hs e.1 e.2).1.trans (ih _)

/-- The table keeps the last value of a key. -/
theorem shget_shputAll (entries : List (Bytes × Bytes)) (hs : Headers) (key : Bytes) :
    shget (shputAll hs entries) key = (valuesOf entries key).getLast?.or (shget hs key) := by
  induction entries generalizing hs with
  | nil => rfl
  | cons e entries ih =>
    change shget (shputAll (shputs hs e.1 e.2) entries) key = _
    rw [ih, shget_shputs]
    by_cases same : e.1 = key
    · have values : valuesOf (e :: entries) key = e.2 :: valuesOf entries key := by
        simp [valuesOf, same]
      rw [if_pos same, values]
      cases valuesOf entries key with
      | nil => rfl
      | cons v vs => simp [List.getLast?_eq_some_getLast]
    · have values : valuesOf (e :: entries) key = valuesOf entries key := by
        simp [valuesOf, same]
      rw [if_neg same, values]

theorem shget_shputAll_nil (entries : List (Bytes × Bytes)) (key : Bytes) :
    shget (shputAll [] entries) key = (valuesOf entries key).getLast? := by
  rw [shget_shputAll, show shget [] key = none from rfl, Option.or_none]

/-- A plain number is read to its end, and may be out of range. -/
theorem strtoull_plain {ds : Bytes} {base : Nat} (hne : ds ≠ [])
    (hd : ∀ b ∈ ds, digitVal b < base) (hx : ∀ b ∈ ds, isspace b = false ∧ b ≠ 45 ∧ b ≠ 43)
    (hmark : ∀ b ∈ ds, b ≠ 120 ∧ b ≠ 88) :
    strtoull ds base = if 2 ^ 64 ≤ ofDigits base ds then ⟨2 ^ 64 - 1, [], true⟩
      else ⟨ofDigits base ds, [], false⟩ := by
  obtain ⟨b, t, rfl⟩ := List.exists_cons_of_ne_nil hne
  have hb := hx b List.mem_cons_self
  have hspace : (b :: t).dropWhile isspace = b :: t :=
    List.dropWhile_cons_of_neg (by simp [hb.1])
  have hsign : takeSign (b :: t) = (false, b :: t) := takeSign_plain hb.2.1 hb.2.2 t
  have hhex : takeHexMark base (b :: t) = b :: t := by
    unfold takeHexMark
    split
    · rename_i x d r h
      have hxm : x ∈ b :: t := by rw [h]; simp
      rw [if_neg (by rintro ⟨-, h | h, -⟩ <;> simp_all)]
      exact h.symm
    · rfl
  have htake : (b :: t).takeWhile (fun b => digitVal b < base) = b :: t := by
    rw [List.takeWhile_eq_self_iff]
    intro x hx'
    simpa using hd x hx'
  have hdrop : (b :: t).dropWhile (fun b => digitVal b < base) = [] := by
    rw [List.dropWhile_eq_nil_iff]
    intro x hx'
    simpa using hd x hx'
  unfold strtoull
  simp only [hspace, hsign, hhex, htake, hdrop]
  rw [if_neg (by simp)]
  simp

theorem strtoull_digits {ds : Bytes} {base : Nat} (hne : ds ≠ [])
    (hd : ∀ b ∈ ds, digitVal b < base) (hx : ∀ b ∈ ds, isspace b = false ∧ b ≠ 45 ∧ b ≠ 43)
    (hmark : ∀ b ∈ ds, b ≠ 120 ∧ b ≠ 88) (hval : ofDigits base ds < 2 ^ 64) :
    strtoull ds base = ⟨ofDigits base ds, [], false⟩ := by
  rw [strtoull_plain hne hd hx hmark, if_neg (Nat.not_le.mpr hval)]

/-- What a hexadecimal digit is not, for the scanner of chunk sizes. -/
theorem xdigit_plain {b : UInt8} (h : isxdigit b = true) :
    digitVal b < 16 ∧ (isspace b = false ∧ b ≠ 45 ∧ b ≠ 43) ∧ (b ≠ 120 ∧ b ≠ 88) ∧
      b ≠ 0 ∧ b ≠ SEMI ∧ b ≠ LF := by
  have key := forall_byte (p := fun b => !isxdigit b || (decide (digitVal b < 16) && (!isspace b
    && b != 45 && b != 43) && (b != 120 && b != 88) && b != 0 && b != SEMI && b != LF))
    (by decide +kernel) b
  simpa [h, and_assoc] using key

theorem digit_plain {b : UInt8} (h : isdigit b = true) : digitVal b < 10 ∧ isxdigit b = true := by
  have key := forall_byte (p := fun b => !isdigit b || (decide (digitVal b < 10) && isxdigit b))
    (by decide +kernel) b
  simpa [h] using key

theorem strtoull_decimal {ds : Bytes} (hne : ds ≠ []) (dec : ∀ b ∈ ds, isdigit b = true)
    (hval : ofDigits 10 ds < 2 ^ 64) : strtoull ds 10 = ⟨ofDigits 10 ds, [], false⟩ := by
  have hex : ∀ b ∈ ds, isxdigit b = true := fun b hb => (digit_plain (dec b hb)).2
  exact strtoull_digits hne (fun b hb => (digit_plain (dec b hb)).1)
    (fun b hb => (xdigit_plain (hex b hb)).2.1) (fun b hb => (xdigit_plain (hex b hb)).2.2.1) hval

/-- A chunk-size line of a numeral with or without an extension. -/
theorem decodeChunkSize_plain {lim : Limits} {ds ext : Bytes} {bodyLen : Nat} (hne : ds ≠ [])
    (hex : ∀ b ∈ ds, isxdigit b = true) (semi : ∀ b, ext.head? = some b → b = SEMI) :
    decodeChunkSize lim bodyLen (ds ++ ext ++ [CR]) =
      if (ds ++ ext).length < 32 ∧ ofDigits 16 ds < 2 ^ 64 ∧ ofDigits 16 ds ≤ lim.maxChunkSize ∧
          bodyLen ≤ lim.maxBodySize - ofDigits 16 ds
      then some (ofDigits 16 ds) else none := by
  have hdigits : (cstr (ds ++ ext)).takeWhile (· != SEMI) = ds := by
    have hnul : cstr (ds ++ ext) = ds ++ cstr ext :=
      List.takeWhile_append_of_pos fun b hb => by simpa using (xdigit_plain (hex b hb)).2.2.2.1
    rw [hnul]
    refine takeWhile_stops (fun b hb => by simpa using (xdigit_plain (hex b hb)).2.2.2.2.1) ?_
    intro b hb
    cases ext with
    | nil => cases hb
    | cons c t =>
      have hc : c = SEMI := semi c rfl
      subst hc
      rw [cstr, List.takeWhile_cons_of_pos (by decide)] at hb
      cases hb
      rfl
  have hnum : strtoull ds 16 = if 2 ^ 64 ≤ ofDigits 16 ds then ⟨2 ^ 64 - 1, [], true⟩
      else ⟨ofDigits 16 ds, [], false⟩ :=
    strtoull_plain hne (fun b hb => (xdigit_plain (hex b hb)).1)
      (fun b hb => (xdigit_plain (hex b hb)).2.1) (fun b hb => (xdigit_plain (hex b hb)).2.2.1)
  have hpos : 0 < (ds ++ ext).length := by
    rw [List.length_append]
    have := List.length_pos_iff.mpr hne
    omega
  unfold decodeChunkSize
  simp only [chomp_crlf, hdigits, hnum]
  by_cases hbig : 2 ^ 64 ≤ ofDigits 16 ds
  · rw [if_pos hbig, if_neg, if_neg]
    · exact fun h => absurd h.2.1 (Nat.not_lt.mpr hbig)
    · rintro ⟨-, -, hrange, -⟩
      cases hrange
  · rw [if_neg hbig]
    refine if_congr ?_ rfl rfl
    constructor
    · rintro ⟨⟨-, hshort⟩, -, -, -, hval, hroom⟩
      exact ⟨hshort, Nat.not_le.mp hbig, hval, hroom⟩
    · rintro ⟨hshort, -, hval, hroom⟩
      exact ⟨⟨hpos, hshort⟩, List.all_eq_true.mpr hex, rfl, rfl, hval, hroom⟩

/-- The byte of a decimal digit, and its value. -/
theorem digit_byte {c : Char} (h : c.isDigit = true) :
    isdigit (UInt8.ofNat c.toNat) = true ∧ digitVal (UInt8.ofNat c.toNat) = c.toNat - 48 := by
  have hrange : 48 ≤ c.toNat ∧ c.toNat ≤ 57 := by simpa using Char.isDigit_iff_toNat.mp h
  have hnat : (UInt8.ofNat c.toNat).toNat = c.toNat := by
    rw [UInt8.toNat_ofNat']
    omega
  have hd : isdigit (UInt8.ofNat c.toNat) = true := by
    simp only [isdigit, Bool.and_eq_true, decide_eq_true_eq, UInt8.le_iff_toNat_le, hnat]
    exact hrange
  exact ⟨hd, by rw [digitVal, if_pos hd, hnat]⟩

theorem decimal_digits {n : Nat} {b : UInt8} (h : b ∈ decimal n) : isdigit b = true := by
  obtain ⟨c, hc, rfl⟩ := List.mem_map.mp h
  exact (digit_byte (Nat.isDigit_of_mem_toDigits (by decide) (by decide) hc)).1

theorem decimal_ne_nil (n : Nat) : decimal n ≠ [] := by
  rw [decimal, ne_eq, List.map_eq_nil_iff]
  exact Nat.toDigits_ne_nil

theorem ofDigits_decimal (n : Nat) : ofDigits 10 (decimal n) = n := by
  have key : ∀ (cs : List Char) (acc : Nat), (∀ c ∈ cs, c.isDigit = true) →
      (cs.map fun c => UInt8.ofNat c.toNat).foldl (fun acc b => acc * 10 + digitVal b) acc =
        Nat.ofDigitChars 10 cs acc := by
    intro cs
    induction cs with
    | nil => intro acc _; rfl
    | cons c cs ih =>
      intro acc hcs
      rw [List.map_cons, List.foldl_cons, (digit_byte (hcs c List.mem_cons_self)).2,
        ih _ fun d hd => hcs d (List.mem_cons_of_mem c hd), Nat.ofDigitChars_cons, Nat.mul_comm]
      rfl
  have h := key (Nat.toDigits 10 n) 0 fun c hc =>
    Nat.isDigit_of_mem_toDigits (by decide) (by decide) hc
  rw [ofDigits, decimal, h, Nat.ofDigitChars_toDigits (by decide) (by decide)]

section Runs

variable {lim : Limits}

/-- The table that a list of headers is read into, when the names differ. -/
def table (hs : Headers) : Headers := hs.map fun h => (lower h.1, h.2)

def headerLines (hs : Headers) : Bytes := hs.flatMap fun h => headerLineText h.1 h.2 ++ CRLF

theorem run_startLine {line : Bytes} (hlf : LF ∉ line) (rest : Bytes) :
    (decoder lim).run .start (line ++ LF :: rest) =
      match decodeRequestLine lim line with
      | none => .failed
      | some req => (decoder lim).run ⟨.headers, req⟩ rest := by
  have hm := step_line lim (s := .start) (Or.inl rfl) (line?_line hlf rest)
  simp only [DecodeState.start, moveLine] at hm
  cases hd : decodeRequestLine lim line with
  | none =>
    rw [hd] at hm
    exact Decoder.run_fail hm
  | some req =>
    rw [hd] at hm
    rw [DecodeState.start, Decoder.run_eat hm, drop_line]

/-- A line that is not blank is a header line or nothing. -/
theorem run_fieldLine {line : Bytes} (hlf : LF ∉ line) (hblank : chomp line ≠ [])
    (req : HttpRequest) (rest : Bytes) :
    (decoder lim).run ⟨.headers, req⟩ (line ++ LF :: rest) =
      match decodeHeaderLine lim req.headers line with
      | none => .failed
      | some hs => (decoder lim).run ⟨.headers, { req with headers := hs }⟩ rest := by
  have hm := step_line lim (s := ⟨.headers, req⟩) (Or.inr (Or.inl rfl)) (line?_line hlf rest)
  simp only [moveLine, if_neg hblank] at hm
  by_cases hlong : lim.maxHeaderLineSize < line.length
  · have hd : decodeHeaderLine lim req.headers line = none := by
      rw [decodeHeaderLine]
      exact if_neg fun h => absurd h.1 (Nat.not_le.mpr hlong)
    rw [if_pos hlong] at hm
    rw [hd]
    exact Decoder.run_fail hm
  · rw [if_neg hlong] at hm
    cases hd : decodeHeaderLine lim req.headers line with
    | none =>
      rw [hd] at hm
      exact Decoder.run_fail hm
    | some hs =>
      rw [hd] at hm
      rw [Decoder.run_eat hm, drop_line]

theorem run_sizeLine {line : Bytes} (hlf : LF ∉ line) (req : HttpRequest) (rest : Bytes) :
    (decoder lim).run ⟨.chunkSize, req⟩ (line ++ LF :: rest) =
      match decodeChunkSize lim req.body.length line with
      | none => .failed
      | some 0 => .complete ⟨.finished, req⟩ rest
      | some (n + 1) => (decoder lim).run ⟨.chunkData (n + 1), req⟩ rest := by
  have hm := step_line lim (s := ⟨.chunkSize, req⟩) (Or.inr (Or.inr rfl)) (line?_line hlf rest)
  simp only [moveLine] at hm
  cases hd : decodeChunkSize lim req.body.length line with
  | none =>
    rw [hd] at hm
    exact Decoder.run_fail hm
  | some size =>
    rw [hd] at hm
    cases size with
    | zero => rw [Decoder.run_done hm, drop_line]
    | succ n => rw [Decoder.run_eat hm, drop_line]

theorem run_requestLine {method uri version : Bytes} (h : ReadableStart lim method uri version)
    (rest : Bytes) :
    (decoder lim).run .start (requestLineText method uri version ++ CRLF ++ rest) =
      (decoder lim).run ⟨.headers, { HttpRequest.empty with
        method := some method, uri := some uri, version := some version }⟩ rest := by
  have hsplit : requestLineText method uri version ++ CRLF ++ rest =
      (requestLineText method uri version ++ [CR]) ++ LF :: rest := by simp [CRLF]
  have hlf : LF ∉ requestLineText method uri version ++ [CR] := by
    have hseps : LF ≠ SP ∧ LF ≠ CR := by decide
    simp [requestLineText, h.method_bytes.2.2, h.uri_bytes.2.2, h.version_bytes.2, hseps]
  rw [hsplit, run_startLine hlf, decodeRequestLine_text h]

theorem run_headerLine {name value : Bytes} (h : Readable lim name value) (req : HttpRequest)
    (new : lower name ∉ keys req.headers) (count : req.headers.length < lim.maxHeaders)
    (rest : Bytes) :
    (decoder lim).run ⟨.headers, req⟩ (headerLineText name value ++ CRLF ++ rest) =
      (decoder lim).run ⟨.headers, { req with headers := req.headers ++ [(lower name, value)] }⟩
        rest := by
  have hsplit : headerLineText name value ++ CRLF ++ rest =
      (headerLineText name value ++ [CR]) ++ LF :: rest := by simp [CRLF]
  have hlf : LF ∉ headerLineText name value ++ [CR] := by
    have hseps : LF ≠ COLON ∧ LF ≠ SP ∧ LF ≠ CR := by decide
    simp [headerLineText, h.name_bytes.2.2, h.value_bytes.2, hseps]
  have hblank : chomp (headerLineText name value ++ [CR]) ≠ [] := by
    rw [chomp_crlf]
    simp [headerLineText]
  have hput : shputs req.headers (lower name) value = req.headers ++ [(lower name, value)] :=
    shputs_new new
  have hdec := decodeHeaderLine_text req.headers h (by
    rw [hput, List.length_append]
    exact count)
  rw [hsplit, run_fieldLine hlf hblank, hdec, hput]

/-- The bytes of lines that an LF ends. -/
def joinLines (lines : List Bytes) : Bytes := lines.flatMap fun line => line ++ [LF]

/-- Header lines are stored one after the other, or one of them is refused. -/
theorem run_lines (lines : List Bytes) (plain : ∀ line ∈ lines, LF ∉ line ∧ chomp line ≠ [])
    (req : HttpRequest) (count : req.headers.length ≤ lim.maxHeaders) (rest : Bytes) :
    (decoder lim).run ⟨.headers, req⟩ (joinLines lines ++ rest) =
      if (∀ line ∈ lines, LineFits lim line) ∧
          (shputAll req.headers (lines.map lineEntry)).length ≤ lim.maxHeaders
      then (decoder lim).run
        ⟨.headers, { req with headers := shputAll req.headers (lines.map lineEntry) }⟩ rest
      else .failed := by
  induction lines generalizing req with
  | nil =>
    rw [if_pos ⟨fun line hl => absurd hl List.not_mem_nil, count⟩]
    rfl
  | cons line lines ih =>
    have hsplit : joinLines (line :: lines) ++ rest = line ++ LF :: (joinLines lines ++ rest) := by
      simp [joinLines]
    have htable : shputAll req.headers ((line :: lines).map lineEntry) =
        shputAll (shputs req.headers (lineEntry line).1 (lineEntry line).2)
          (lines.map lineEntry) := rfl
    obtain ⟨hone, hrest⟩ := List.forall_mem_cons.mp plain
    rw [hsplit, run_fieldLine hone.1 hone.2, decodeHeaderLine_entry, htable]
    by_cases stored : LineFits lim line ∧
        (shputs req.headers (lineEntry line).1 (lineEntry line).2).length ≤ lim.maxHeaders
    · rw [if_pos stored]
      dsimp only
      rw [ih hrest _ stored.2]
      refine if_congr ?_ rfl rfl
      rw [List.forall_mem_cons]
      exact and_congr_left fun _ => ⟨fun h => ⟨stored.1, h⟩, fun h => h.2⟩
    · rw [if_neg stored, if_neg]
      rintro ⟨fits, small⟩
      exact stored ⟨fits line List.mem_cons_self, (shputAll_length _ _).trans small⟩

/-- Header lines with different names are read into the table of their headers. -/
theorem run_headerLines (hs : Headers) (req : HttpRequest)
    (readable : ∀ h ∈ hs, Readable lim h.1 h.2)
    (nodup : (keys req.headers ++ keys (table hs)).Nodup)
    (count : req.headers.length + hs.length ≤ lim.maxHeaders) (rest : Bytes) :
    (decoder lim).run ⟨.headers, req⟩ (headerLines hs ++ rest) =
      (decoder lim).run ⟨.headers, { req with headers := req.headers ++ table hs }⟩ rest := by
  induction hs generalizing req with
  | nil => simp [headerLines, table]
  | cons h hs ih =>
    have hnew : lower h.1 ∉ keys req.headers := by
      intro hmem
      exact (List.nodup_append.mp nodup).2.2 _ hmem _ (by simp [keys, table]) rfl
    rw [List.length_cons] at count
    have hline : headerLines (h :: hs) ++ rest =
        headerLineText h.1 h.2 ++ CRLF ++ (headerLines hs ++ rest) := by
      simp [headerLines]
    rw [hline, run_headerLine (readable h List.mem_cons_self) req hnew (by omega), ih]
    · simp [table]
    · exact fun h' hh' => readable h' (List.mem_cons_of_mem h hh')
    · simpa [keys, table] using nodup
    · simp only [List.length_append, List.length_cons, List.length_nil]
      omega

/-- The run behind the blank line is decided by the framing headers. -/
def afterHead (lim : Limits) (req : HttpRequest) (rest : Bytes) : Outcome DecodeState UInt8 :=
  match decodeFraming lim req.headers with
  | none => .failed
  | some .finished => .complete ⟨.finished, req⟩ rest
  | some phase => (decoder lim).run ⟨phase, req⟩ rest

theorem run_blankLine {line : Bytes} (hlf : LF ∉ line) (hblank : chomp line = [])
    (short : line.length ≤ lim.maxHeaderLineSize) (req : HttpRequest) (rest : Bytes) :
    (decoder lim).run ⟨.headers, req⟩ (line ++ LF :: rest) = afterHead lim req rest := by
  have hm := step_line lim (s := ⟨.headers, req⟩) (Or.inr (Or.inl rfl)) (line?_line hlf rest)
  simp only [moveLine, if_neg (Nat.not_lt.mpr short), hblank, if_true] at hm
  rw [afterHead]
  cases hf : decodeFraming lim req.headers with
  | none =>
    rw [hf] at hm
    exact Decoder.run_fail hm
  | some phase =>
    rw [hf] at hm
    cases phase with
    | finished => rw [Decoder.run_done hm, drop_line]
    | requestLine => rw [Decoder.run_eat hm, drop_line]
    | headers => rw [Decoder.run_eat hm, drop_line]
    | counted n => rw [Decoder.run_eat hm, drop_line]
    | chunkSize => rw [Decoder.run_eat hm, drop_line]
    | chunkData n => rw [Decoder.run_eat hm, drop_line]

theorem run_blank (sane : 0 < lim.maxHeaderLineSize) (req : HttpRequest) (rest : Bytes) :
    (decoder lim).run ⟨.headers, req⟩ (CRLF ++ rest) = afterHead lim req rest := by
  have hsplit : CRLF ++ rest = [CR] ++ LF :: rest := by simp [CRLF]
  have hcr : LF ∉ [CR] := by decide
  rw [hsplit, run_blankLine hcr (by decide) sane req rest]

/-- The bytes of a request up to the blank line, the blank line included. -/
def head (method uri version : Bytes) (hs : Headers) : Bytes :=
  requestLineText method uri version ++ CRLF ++ headerLines hs ++ CRLF

theorem run_head {method uri version : Bytes} {hs : Headers}
    (start : ReadableStart lim method uri version) (readable : ∀ h ∈ hs, Readable lim h.1 h.2)
    (nodup : (keys (table hs)).Nodup) (count : hs.length ≤ lim.maxHeaders) (rest : Bytes) :
    (decoder lim).run .start (head method uri version hs ++ rest) =
      afterHead lim ⟨some method, some uri, some version, table hs, []⟩ rest := by
  have hsane : 0 < lim.maxHeaderLineSize := by
    have := start.line_fits
    omega
  have hsplit : head method uri version hs ++ rest =
      requestLineText method uri version ++ CRLF ++ (headerLines hs ++ (CRLF ++ rest)) := by
    simp [head]
  rw [hsplit, run_requestLine start, run_headerLines hs _ readable, run_blank hsane]
  · rfl
  · simpa [HttpRequest.empty, keys] using nodup
  · simpa [HttpRequest.empty] using count

end Runs

end RequestGrammar
