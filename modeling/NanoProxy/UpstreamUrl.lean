import NanoProxy.LoadBalancer

/-!
# Host and port of an upstream URL

`proxy_handler` splits the URL that it connects to, and `upstream_pool_register` that of each
target. Both give everything behind the colon to `SAFE_STRTOL`, the path with it.
-/

namespace UpstreamUrl

open CLib LoadBalancer ListenerRouting

variable {s digits path addr : Bytes} {fallback : Nat}

/-- `host` and `port` of a target, as `upstream_pool_register` fills them in. -/
def targetAddress (url : Bytes) : Bytes × Nat :=
  let hostStart := match strstr (ascii "://") url with
    | some schemeEnd => url.drop (schemeEnd + 3)
    | none => url
  let fallback := if url[4]? = some 115 then 443 else 80
  match hostStart with
  | 91 :: rest =>
    match memchr rest 93 0 with
    | none => ([], 0)
    | some n =>
      let port := if rest[n + 1]? = some COLON then parsePort (rest.drop (n + 2)) fallback else fallback
      ((rest.take n).take 255, port)
  | host =>
    let authority := host.takeWhile fun b => b ≠ SLASH && b ≠ QUESTION
    match lastColon authority with
    | some n => ((host.take n).take 255, parsePort (host.drop (n + 1)) fallback)
    | none => (authority.take 255, fallback)

/-- A name or an IPv4 address, or an IPv6 address in brackets. -/
inductive Host where
  | name (text : Bytes)
  | ipv6 (address : Bytes)

def Host.address : Host → Bytes
  | .name text => text
  | .ipv6 address => address

def Host.text : Host → Bytes
  | .name text => text
  | .ipv6 address => 91 :: (address ++ [93])

/-- A name does not look like an IPv6 address. -/
def Host.Valid : Host → Prop
  | .name text => 0 < text.length ∧ text.length ≤ 255 ∧ text.head? ≠ some 91 ∧
      ∀ b ∈ text, b ≠ COLON ∧ b ≠ SLASH ∧ b ≠ QUESTION
  | .ipv6 address => address.length ≤ 255 ∧ ∀ b ∈ address, b ≠ 93

structure Url where
  host : Host
  port : Option Bytes
  path : Bytes

def Url.text (url : Url) : Bytes :=
  ascii "http://" ++ (url.host.text ++ (url.port.elim [] (COLON :: ·) ++ url.path))

structure Url.Valid (url : Url) : Prop where
  host : url.host.Valid
  port : ∀ digits ∈ url.port, digits ≠ [] ∧ (∀ b ∈ digits, isdigit b = true) ∧
    0 < ofDigits 10 digits ∧ ofDigits 10 digits ≤ 65535
  path : ∀ b, url.path.head? = some b → b = SLASH

def Url.portNumber (url : Url) : Nat := url.port.elim 80 (ofDigits 10)

/-- Both functions find the host and the port. -/
def Splits (url : Url) : Prop :=
  parseUpstream url.text = some (url.host.address, url.portNumber) ∧
    targetAddress url.text = (url.host.address, url.portNumber)

theorem safeStrtol_digits (digit : ∀ b ∈ digits, isdigit b = true) (nonempty : digits ≠ [])
    (rooted : ∀ b, path.head? = some b → b = SLASH) (small : ofDigits 10 digits ≤ 65535) :
    safeStrtol (digits ++ path) = if path = [] then (ofDigits 10 digits : Int) else 0 := by
  have stops : ∀ b, path.head? = some b → isdigit b = false := by
    intro b head
    rw [rooted b head]
    rfl
  have first : ∀ b, (digits ++ path).head? = some b → isdigit b = true := by
    intro b head
    obtain ⟨c, t, rfl⟩ := List.exists_cons_of_ne_nil nonempty
    cases head
    exact digit b List.mem_cons_self
  have number : (digits ++ path).takeWhile isdigit = digits := takeWhile_stops digit stops
  have rest : (digits ++ path).dropWhile isdigit = path := by
    rw [dropWhile_stops stops, List.dropWhile_eq_nil_iff.mpr digit, List.nil_append]
  unfold safeStrtol
  rw [takeSign_digits first]
  dsimp only
  rw [number, rest]
  by_cases alone : path = []
  · rw [if_neg (not_not.mpr alone), if_pos alone, if_neg Bool.false_ne_true, if_neg (by omega)]
  · rw [if_pos alone, if_neg alone]

/-- The port, unless a path follows it. -/
theorem parsePort_digits (digit : ∀ b ∈ digits, isdigit b = true) (nonempty : digits ≠ [])
    (rooted : ∀ b, path.head? = some b → b = SLASH) (positive : 0 < ofDigits 10 digits)
    (small : ofDigits 10 digits ≤ 65535) :
    parsePort (digits ++ path) fallback = if path = [] then ofDigits 10 digits else fallback := by
  rw [parsePort, safeStrtol_digits digit nonempty rooted small]
  split
  · have same : (ofDigits 10 digits : Int).bmod (2 ^ 32) = ofDigits 10 digits := by
      rw [Int.bmod_eq_of_le (by omega) (by omega)]
    rw [same, if_neg (by omega), Int.toNat_natCast]
  · rfl

theorem no_colons (plain : ∀ b ∈ s, b ≠ COLON) (n : Nat) :
    (s.zipIdx n).filter (·.1 = COLON) = [] := by
  rw [List.filter_eq_nil_iff]
  intro e listed
  rw [decide_eq_true_eq]
  exact plain e.1 (List.fst_mem_of_mem_zipIdx listed)

theorem lastColon_none (plain : ∀ b ∈ s, b ≠ COLON) : lastColon s = none := by
  rw [lastColon, no_colons plain]
  rfl

theorem lastColon_append (plain : ∀ b ∈ digits, b ≠ COLON) :
    lastColon (s ++ COLON :: digits) = some s.length := by
  rw [lastColon, List.zipIdx_append, List.zipIdx_cons, List.filter_append,
    List.filter_cons_of_pos (by exact decide_eq_true rfl), no_colons plain, List.getLast?_concat]
  simp

theorem strstr_scheme (rest : Bytes) : strstr (ascii "://") (ascii "http://" ++ rest) = some 4 := by
  rfl

theorem scheme_plain (rest : Bytes) : (ascii "http://" ++ rest)[4]? = some 58 := rfl

theorem drop_scheme (rest : Bytes) : (ascii "http://" ++ rest).drop 7 = rest := rfl

/-- The port that a function with this fallback finds. -/
def foundPort (fallback : Nat) (url : Url) : Nat :=
  url.port.elim 80 fun digits => if url.path = [] then ofDigits 10 digits else fallback

variable {url : Url} {text : Bytes} {stop : UInt8 → Bool}

/-- The text behind the scheme. -/
def Url.rest (url : Url) : Bytes := url.host.text ++ (url.port.elim [] (COLON :: ·) ++ url.path)

/-- A test for the bytes of an authority. -/
structure Authority (stop : UInt8 → Bool) (text : Bytes) : Prop where
  plain : ∀ b ∈ text, stop b = true
  colon : stop COLON = true
  slash : stop SLASH = false
  digit : ∀ b, isdigit b = true → stop b = true

theorem slash_authority (plain : ∀ b ∈ text, b ≠ SLASH) : Authority (fun b => b ≠ SLASH) text where
  plain b listed := decide_eq_true (plain b listed)
  colon := rfl
  slash := rfl
  digit _ digit := decide_eq_true (isdigit_plain digit).2.2.2.1

theorem query_authority (plain : ∀ b ∈ text, b ≠ SLASH ∧ b ≠ QUESTION) :
    Authority (fun b => b ≠ SLASH && b ≠ QUESTION) text where
  plain b listed := by simp [plain b listed]
  colon := rfl
  slash := rfl
  digit _ digit := by
    have apart := isdigit_plain digit
    rw [Bool.and_eq_true]
    exact ⟨decide_eq_true apart.2.2.2.1, decide_eq_true apart.2.2.2.2.2⟩

theorem Url.Valid.digit (valid : url.Valid) (present : url.port = some digits) :
    ∀ b ∈ digits, isdigit b = true := (valid.port digits present).2.1

theorem Url.Valid.parsePort (valid : url.Valid) (present : url.port = some digits) (fallback : Nat) :
    LoadBalancer.parsePort (digits ++ url.path) fallback =
      if url.path = [] then ofDigits 10 digits else fallback := by
  obtain ⟨nonempty, digit, positive, small⟩ := valid.port digits present
  exact parsePort_digits digit nonempty valid.path positive small

/-- The authority ends at the path. -/
theorem authority_rest (valid : url.Valid) (host : url.host = .name text) (h : Authority stop text) :
    url.rest.takeWhile stop = text ++ url.port.elim [] (COLON :: ·) := by
  rw [Url.rest, host, ← List.append_assoc]
  apply takeWhile_stops
  · intro b listed
    rcases List.mem_append.mp listed with inName | inPort
    · exact h.plain b inName
    · cases present : url.port with
      | none =>
        rw [present] at inPort
        cases inPort
      | some digits =>
        rw [present] at inPort
        rcases List.mem_cons.mp inPort with rfl | inDigits
        · exact h.colon
        · exact h.digit b (valid.digit present b inDigits)
  · intro b head
    rw [valid.path b head]
    exact h.slash

theorem rest_colon (valid : url.Valid) (host : url.host = .name text) (h : Authority stop text)
    (present : url.port = some digits) :
    lastColon (url.rest.takeWhile stop) = some text.length ∧ url.rest.take text.length = text ∧
      url.rest.drop (text.length + 1) = digits ++ url.path := by
  refine ⟨?_, ?_, ?_⟩
  · rw [authority_rest valid host h, present, Option.elim_some]
    exact lastColon_append fun b listed => (isdigit_plain (valid.digit present b listed)).2.2.2.2.1
  · rw [Url.rest, host]
    exact List.take_left
  · rw [Url.rest, host, present, Host.text, List.drop_append]
    simp

theorem rest_alone (valid : url.Valid) (host : url.host = .name text) (h : Authority stop text)
    (plain : ∀ b ∈ text, b ≠ COLON) (absent : url.port = none) :
    url.rest.takeWhile stop = text ∧ lastColon text = none := by
  refine ⟨?_, lastColon_none plain⟩
  rw [authority_rest valid host h, absent]
  exact List.append_nil text

theorem not_bracket (nonempty : 0 < text.length) (unbracketed : text.head? ≠ some 91)
    (rest t : Bytes) : text ++ rest ≠ 91 :: t := by
  obtain ⟨b, s, rfl⟩ := List.exists_cons_of_ne_nil (List.length_pos_iff.mp nonempty)
  intro same
  cases same
  exact unbracketed rfl

theorem parseUpstream_name (valid : url.Valid) (host : url.host = .name text) :
    parseUpstream url.text = some (text, foundPort 80 url) := by
  obtain ⟨nonempty, short, unbracketed, plain⟩ : (Host.name text).Valid := host ▸ valid.host
  have authority := slash_authority fun b listed => (plain b listed).2.1
  have no_colon : ∀ b ∈ text, b ≠ COLON := fun b listed => (plain b listed).1
  have bracket : ∀ t, url.rest ≠ 91 :: t := by
    rw [Url.rest, host]
    exact not_bracket nonempty unbracketed _
  unfold parseUpstream Url.text
  rw [if_neg (by simp), drop_scheme, ← Url.rest]
  split
  · rename_i same
    exact absurd same (bracket _)
  · dsimp only
    unfold foundPort
    cases present : url.port with
    | none =>
      obtain ⟨whole, none⟩ := rest_alone valid host authority no_colon present
      rw [whole, none]
      dsimp only
      rw [List.take_of_length_le short]
      rfl
    | some digits =>
      obtain ⟨colon, before, behind⟩ := rest_colon valid host authority present
      rw [colon]
      dsimp only
      rw [before, behind, List.take_of_length_le short, valid.parsePort present]
      rfl

theorem targetAddress_name (valid : url.Valid) (host : url.host = .name text) :
    targetAddress url.text = (text, foundPort 80 url) := by
  obtain ⟨nonempty, short, unbracketed, plain⟩ : (Host.name text).Valid := host ▸ valid.host
  have authority := query_authority fun b listed => (plain b listed).2
  have no_colon : ∀ b ∈ text, b ≠ COLON := fun b listed => (plain b listed).1
  have bracket : ∀ t, url.rest ≠ 91 :: t := by
    rw [Url.rest, host]
    exact not_bracket nonempty unbracketed _
  unfold targetAddress Url.text
  rw [strstr_scheme, ← Url.rest]
  dsimp only
  rw [drop_scheme, scheme_plain, if_neg (by decide)]
  split
  · rename_i same
    exact absurd same (bracket _)
  · unfold foundPort
    cases present : url.port with
    | none =>
      obtain ⟨whole, none⟩ := rest_alone valid host authority no_colon present
      rw [whole, none]
      dsimp only
      rw [List.take_of_length_le short]
      rfl
    | some digits =>
      obtain ⟨colon, before, behind⟩ := rest_colon valid host authority present
      rw [colon]
      dsimp only
      rw [before, behind, List.take_of_length_le short, valid.parsePort present]
      rfl

theorem memchr_bracket (plain : ∀ b ∈ addr, b ≠ 93) (t : Bytes) :
    memchr (addr ++ 93 :: t) 93 0 = some addr.length := by
  rw [memchr_append List.drop_zero plain, Nat.zero_add]

theorem ipv6_rest (host : url.host = .ipv6 addr) :
    url.rest = 91 :: (addr ++ 93 :: (url.port.elim [] (COLON :: ·) ++ url.path)) := by
  rw [Url.rest, host, Host.text]
  simp

/-- What stands behind the bracket. -/
theorem behind_bracket (addr t : Bytes) : (addr ++ 93 :: t).take addr.length = addr ∧
    (addr ++ 93 :: t)[addr.length + 1]? = t.head? ∧
      (addr ++ 93 :: t).drop (addr.length + 2) = t.drop 1 := by
  refine ⟨List.take_left, ?_, ?_⟩
  · rw [List.getElem?_append_right (by omega), Nat.add_sub_cancel_left, List.getElem?_cons_succ,
      List.head?_eq_getElem?]
  · rw [List.drop_append, List.drop_of_length_le (by omega), List.nil_append,
      Nat.add_sub_cancel_left, List.drop_succ_cons]

theorem ipv6_port (valid : url.Valid) (fallback : Nat) :
    (if (url.port.elim [] (COLON :: ·) ++ url.path).head? = some COLON then
      parsePort ((url.port.elim [] (COLON :: ·) ++ url.path).drop 1) fallback else 80) =
        foundPort fallback url := by
  unfold foundPort
  cases present : url.port with
  | none =>
    rw [Option.elim_none, List.nil_append, if_neg]
    · rfl
    · intro head
      exact absurd (valid.path COLON head) (by decide)
  | some digits =>
    have colon : (COLON :: digits ++ url.path).head? = some COLON := rfl
    rw [Option.elim_some, if_pos colon]
    exact valid.parsePort present fallback

theorem parseUpstream_ipv6 (valid : url.Valid) (host : url.host = .ipv6 addr) :
    parseUpstream url.text = some (addr, foundPort 443 url) := by
  obtain ⟨short, plain⟩ : (Host.ipv6 addr).Valid := host ▸ valid.host
  obtain ⟨before, colon, behind⟩ := behind_bracket addr (url.port.elim [] (COLON :: ·) ++ url.path)
  unfold parseUpstream Url.text
  rw [if_neg (by simp), drop_scheme, ← Url.rest, ipv6_rest host]
  split
  · rename_i same
    cases same
    rw [memchr_bracket plain]
    dsimp only
    rw [before, colon, behind, List.take_of_length_le short, ipv6_port valid]
  · rename_i other
    exact absurd rfl (other _)

theorem targetAddress_ipv6 (valid : url.Valid) (host : url.host = .ipv6 addr) :
    targetAddress url.text = (addr, foundPort 80 url) := by
  obtain ⟨short, plain⟩ : (Host.ipv6 addr).Valid := host ▸ valid.host
  obtain ⟨before, colon, behind⟩ := behind_bracket addr (url.port.elim [] (COLON :: ·) ++ url.path)
  unfold targetAddress Url.text
  rw [strstr_scheme, ← Url.rest]
  dsimp only
  rw [drop_scheme, scheme_plain, if_neg (by decide), ipv6_rest host]
  split
  · rename_i same
    cases same
    rw [memchr_bracket plain]
    dsimp only
    rw [before, colon, behind, List.take_of_length_le short, ipv6_port valid]
  · rename_i other
    exact absurd rfl (other _)

theorem foundPort_iff (fallback : Nat) :
    foundPort fallback url = url.portNumber ↔
      url.port = none ∨ url.path = [] ∨ url.portNumber = fallback := by
  unfold foundPort Url.portNumber
  cases present : url.port with
  | none => simp
  | some digits =>
    by_cases alone : url.path = []
    · simp [alone]
    · simp [alone, eq_comm]

/-- A port in front of a path is found by neither function; the default is right for it if it is
80 and stands behind a name. -/
theorem splits_iff (url : Url) (valid : url.Valid) :
    Splits url ↔ url.port = none ∨ url.path = [] ∨
      (∃ text, url.host = .name text) ∧ url.portNumber = 80 := by
  unfold Splits
  cases host : url.host with
  | name text =>
    rw [parseUpstream_name valid host, targetAddress_name valid host]
    simp only [Host.address, Option.some.injEq, Prod.mk.injEq, true_and, and_self, foundPort_iff,
      Host.name.injEq, exists_eq', true_and]
  | ipv6 addr =>
    rw [parseUpstream_ipv6 valid host, targetAddress_ipv6 valid host]
    simp only [Host.address, Option.some.injEq, Prod.mk.injEq, true_and, foundPort_iff,
      reduceCtorEq, exists_false, false_and, or_false]
    constructor
    · rintro ⟨absent | alone | https, absent | alone | http⟩
      · exact Or.inl absent
      · exact Or.inl absent
      · exact Or.inl absent
      · exact Or.inl absent
      · exact Or.inr alone
      · exact Or.inr alone
      · exact Or.inl absent
      · exact Or.inr alone
      · rw [https] at http
        cases http
    · rintro (absent | alone)
      · exact ⟨Or.inl absent, Or.inl absent⟩
      · exact ⟨Or.inr (Or.inl alone), Or.inr (Or.inl alone)⟩

def ipv6Url (path : Bytes) : Url := ⟨.ipv6 (ascii "::1"), some (ascii "8000"), path⟩

theorem ipv6Url_valid {path : Bytes} (rooted : ∀ b, path.head? = some b → b = SLASH) :
    (ipv6Url path).Valid where
  host := by
    change (ascii "::1").length ≤ 255 ∧ ∀ b ∈ ascii "::1", b ≠ 93
    decide +kernel
  port := by
    rintro _ ⟨⟩
    decide +kernel
  path := rooted

theorem splits_sample : Splits (ipv6Url []) :=
  (splits_iff (ipv6Url []) (ipv6Url_valid (by rintro _ ⟨⟩))).mpr (Or.inr (Or.inl rfl))

/-- `http://[::1]:8000/` goes to port 443. -/
theorem not_splits : ¬∀ url : Url, url.Valid → Splits url := by
  intro always
  have splits := always (ipv6Url [SLASH]) (ipv6Url_valid (by rintro _ ⟨⟩; rfl))
  have wrong : parseUpstream (ipv6Url [SLASH]).text = some (ascii "::1", 443) := by decide
  rw [Splits, wrong] at splits
  exact absurd splits.1 (by decide)

end UpstreamUrl
