import NanoProxy.CLib
import NanoProxy.Lib.DnsMessage

/-!
# The DNS responder (include/dns.h)

`dns_build_response` with its output buffer: the bytes up to `pos`, and how far it has
written. Addresses and host names are in the configuration as `load_config` leaves them.
-/

namespace DnsResponder

open CLib DnsMessage

def DNS_HDR_SIZE : Nat := 12
def DNS_CLASS_IN : UInt16 := 1
def DNS_FLAG_QR : UInt16 := 0x8000
def DNS_FLAG_AA : UInt16 := 0x0400
def DNS_FLAG_RD : UInt16 := 0x0100
def DNS_RCODE_OK : UInt16 := 0
def DNS_RCODE_NXDOMAIN : UInt16 := 3
def DNS_RCODE_REFUSED : UInt16 := 5
def MAX_DNS_RECORDS : Nat := 16
def DNS_ANY : UInt16 := 255
def DOT : UInt8 := 46

/-- A string in a `char[size]`. -/
structure CString (size : Nat) where
  bytes : Bytes
  length_lt : bytes.length < size
  no_nul : bytes.all (· ≠ 0) = true

/-- An address of `n` bytes in network order. -/
structure Address (n : Nat) where
  bytes : Bytes
  length_eq : bytes.length = n

/-- The type of a record and the member of the union that belongs to it. -/
inductive DnsData where
  | a (address : Address 4)
  | ns (host : CString 256)
  | cname (host : CString 256)
  | soa
  | ptr (host : CString 256)
  | mx (priority : UInt16) (host : CString 256)
  | txt (text : CString 512)
  | aaaa (address : Address 16)
  | srv (priority weight port : UInt16) (target : CString 256)

def DnsData.rtype : DnsData → UInt16
  | .a _ => 1
  | .ns _ => 2
  | .cname _ => 5
  | .soa => 6
  | .ptr _ => 12
  | .mx _ _ => 15
  | .txt _ => 16
  | .aaaa _ => 28
  | .srv _ _ _ _ => 33

structure DnsRecord where
  data : DnsData
  ttl : UInt32

structure DnsEntry where
  name : CString 256
  records : List DnsRecord
  records_le : records.length ≤ MAX_DNS_RECORDS

structure DnsConfig where
  entries : List DnsEntry

/-- The labels that a loop over a dotted name comes to: a dot at the end makes none. -/
def nameLabels (name : Bytes) : List Bytes :=
  let labels := name.splitOn DOT
  if labels.getLast? = some [] then labels.dropLast else labels

def hostByte (c : UInt8) : Bool :=
  (97 ≤ c && c ≤ 122) || (65 ≤ c && c ≤ 90) || (48 ≤ c && c ≤ 57) || c = 45 || c = 95

def validLabel (label : Bytes) : Bool :=
  label.length ≠ 0 && label.length ≤ 63 && label.head? ≠ some 45 && label.getLast? ≠ some 45 &&
    label.all hostByte

/-- The check of `load_config` on names (include/config.h). -/
def dnsValidHostname (name : Bytes) : Bool :=
  name ≠ [] && name.length ≤ 253 && (nameLabels name).all validLabel

/-- A label at the end of the dotted name in a `char[outlen]`. -/
def putLabel (outlen : Nat) (label out : Bytes) : Bytes :=
  let out := if 0 < out.length ∧ out.length < outlen - 1 then out ++ [DOT] else out
  out ++ (label.take (outlen - 1 - out.length)).map tolower

/-- The loop of `dns_decode_name`. `first_end` is 0 until the end of the name is known. -/
def decodeLoop (buf : Bytes) (outlen : Nat) :
    (fuel pos jumps firstEnd : Nat) → Bytes → Option (Bytes × Nat)
  | 0, _, _, _, _ => none
  | fuel + 1, pos, jumps, firstEnd, out =>
    if buf.length ≤ pos then some (out, firstEnd) else
    let len := buf.getD pos 0
    if len = 0 then some (out, if firstEnd = 0 then pos + 1 else firstEnd)
    else if len &&& 0xC0 = 0xC0 then
      if buf.length ≤ pos + 1 then none else
      let firstEnd := if firstEnd = 0 then pos + 2 else firstEnd
      let ptr := (len &&& 0x3F).toNat * 256 + (buf.getD (pos + 1) 0).toNat
      if buf.length ≤ ptr ∨ 64 < jumps + 1 then none
      else decodeLoop buf outlen fuel ptr (jumps + 1) firstEnd out
    else if 63 < len ∨ buf.length < pos + 1 + len.toNat then none
    else decodeLoop buf outlen fuel (pos + 1 + len.toNat) jumps firstEnd
      (putLabel outlen (slice buf (pos + 1) (pos + 1 + len.toNat)) out)

/-- What the loop needs: up to 64 jumps, and in between no position twice. -/
def decodeFuel (buf : Bytes) (pos jumps : Nat) : Nat :=
  (64 - jumps) * (buf.length + 2) + (buf.length + 1 - pos)

/-- The dotted name in lower case, as it stands in `out`, and the bytes consumed. -/
def dnsDecodeName (buf : Bytes) (off outlen : Nat) : Option (Bytes × Nat) :=
  match decodeLoop buf outlen (decodeFuel buf off 0) off 0 0 [] with
  | none => none
  | some (out, firstEnd) => if off < firstEnd then some (out, firstEnd - off) else none

/-- The loop over the labels; an error tells how many bytes were written before it. -/
def encodeLoop (dstlen : Nat) : List Bytes → Bytes → Except Nat Bytes
  | [], dst => if dstlen ≤ dst.length then .error dst.length else .ok (dst ++ [0])
  | label :: labels, dst =>
    if label.length = 0 ∨ 63 < label.length ∨ dstlen ≤ dst.length + 1 + label.length
    then .error dst.length
    else encodeLoop dstlen labels (dst ++ UInt8.ofNat label.length :: label)

def dnsEncodeName (name : Bytes) (dstlen : Nat) : Except Nat Bytes :=
  encodeLoop dstlen (nameLabels name) []

def dnsPut16 (val : UInt16) : Bytes := [(val >>> 8).toUInt8, (val &&& 0xFF).toUInt8]

def dnsPut32 (val : UInt32) : Bytes :=
  [(val >>> 24).toUInt8, ((val >>> 16) &&& 0xFF).toUInt8, ((val >>> 8) &&& 0xFF).toUInt8,
    (val &&& 0xFF).toUInt8]

/-- `(buf[off] << 8) | buf[off + 1]` -/
def at16 (buf : Bytes) (off : Nat) : UInt16 :=
  ((buf.getD off 0).toUInt16 <<< 8) ||| (buf.getD (off + 1) 0).toUInt16

/-- `out[0..pos)`, and one more than the highest index written. -/
structure Out where
  bytes : Bytes
  reach : Nat

def Out.pos (o : Out) : Nat := o.bytes.length

def Out.put (o : Out) (bytes : Bytes) : Out where
  bytes := o.bytes ++ bytes
  reach := max o.reach (o.pos + bytes.length)

/-- `n` bytes were written at `pos`, which stays where it is. -/
def Out.touch (o : Out) (n : Nat) : Out := { o with reach := max o.reach (o.pos + n) }

/-- Two bytes that are there already. -/
def Out.patch16 (o : Out) (off : Nat) (val : UInt16) : Out :=
  { o with bytes := (o.bytes.set off (val >>> 8).toUInt8).set (off + 1) (val &&& 0xFF).toUInt8 }

variable (outmax : Nat)

def putName (host : Bytes) (o : Out) : Out :=
  match dnsEncodeName host (usub outmax o.pos) with
  | .ok bytes => o.put bytes
  | .error n => o.touch n

/-- The chunks of a text, at most `fuel`. -/
def txtChunks : (fuel : Nat) → Bytes → List Bytes
  | 0, _ => []
  | fuel + 1, text => if text = [] then [] else text.take 255 :: txtChunks fuel (text.drop 255)

def putChunks : List Bytes → Out → Out
  | [], o => o
  | chunk :: chunks, o =>
    if outmax < o.pos + 1 + chunk.length then o
    else putChunks chunks (o.put (UInt8.ofNat chunk.length :: chunk))

/-- The `switch` on the type. -/
def putRData (data : DnsData) (o : Out) : Out :=
  match data with
  | .a address => if outmax < o.pos + 4 then o else o.put address.bytes
  | .aaaa address => if outmax < o.pos + 16 then o else o.put address.bytes
  | .cname host => putName outmax host.bytes o
  | .ns host => putName outmax host.bytes o
  | .ptr host => putName outmax host.bytes o
  | .mx priority host =>
    if outmax < o.pos + 2 then o else putName outmax host.bytes (o.put (dnsPut16 priority))
  | .txt text => putChunks outmax (txtChunks text.bytes.length text.bytes) o
  | .srv priority weight port target =>
    if outmax < o.pos + 6 then o
    else putName outmax target.bytes
      (o.put (dnsPut16 priority ++ dnsPut16 weight ++ dnsPut16 port))
  | .soa => o

/-- The filter: the type that is asked for, every type for ANY, and always CNAME. -/
def answers (qtype : UInt16) (rec : DnsRecord) : Bool :=
  qtype = DNS_ANY || rec.data.rtype = qtype || rec.data.rtype = 5

/-- TYPE, CLASS, TTL, RDLENGTH and RDATA. -/
def putAnswer (rec : DnsRecord) (o : Out) : Out :=
  let o := o.put (dnsPut16 rec.data.rtype ++ dnsPut16 DNS_CLASS_IN ++ dnsPut32 rec.ttl)
  let rdlenOff := o.pos
  let o := o.put (dnsPut16 0)
  let rdStart := o.pos
  let o := putRData outmax rec.data o
  o.patch16 rdlenOff (UInt16.ofNat (o.pos - rdStart))

/-- The loop over the records, with the number of answers. -/
def answerLoop (qtype : UInt16) : List DnsRecord → Out → UInt16 → Out × UInt16
  | [], o, ancount => (o, ancount)
  | rec :: records, o, ancount =>
    if !answers qtype rec then answerLoop qtype records o ancount
    else if outmax < o.pos + 2 then (o, ancount)
    else
      let o := o.put [0xC0, 12]
      if outmax < o.pos + 8 then (o, ancount)
      else answerLoop qtype records (putAnswer outmax rec o) (ancount + 1)

/-- `strcmp` with the entries, for the name that stands in a buffer. -/
def lookup (cfg : DnsConfig) (qname : Bytes) : Option DnsEntry :=
  cfg.entries.find? fun entry => entry.name.bytes = qname.takeWhile (· ≠ 0)

/-- The length of the response is `pos`, 0 for none. -/
def dnsBuildResponse (query : Bytes) (cfg : DnsConfig) (outmax : Nat) : Out :=
  if query.length < DNS_HDR_SIZE ∨ outmax < 512 then ⟨[], 0⟩ else
  let id := at16 query 0
  let flags := at16 query 2
  if at16 query 4 = 0 then ⟨[], 0⟩ else
  match dnsDecodeName query DNS_HDR_SIZE 256 with
  | none => ⟨[], 0⟩
  | some (qname, nameBytes) =>
    let qoff := DNS_HDR_SIZE + nameBytes
    if query.length < qoff + 4 then ⟨[], 0⟩ else
    let qtype := at16 query qoff
    let entry := if at16 query (qoff + 2) = DNS_CLASS_IN then lookup cfg qname else none
    let rcode := if at16 query (qoff + 2) ≠ DNS_CLASS_IN then DNS_RCODE_REFUSED
      else if entry.isNone then DNS_RCODE_NXDOMAIN else DNS_RCODE_OK
    let rflags := DNS_FLAG_QR ||| DNS_FLAG_AA ||| (flags &&& DNS_FLAG_RD) ||| rcode
    let o : Out := (⟨[], 512⟩ : Out).put (dnsPut16 id ++ dnsPut16 rflags ++ dnsPut16 1 ++
      dnsPut16 0 ++ dnsPut16 0 ++ dnsPut16 0)
    let qTotal := nameBytes + 4
    if outmax < o.pos + qTotal then ⟨[], o.reach⟩ else
    let o := o.put (slice query DNS_HDR_SIZE (DNS_HDR_SIZE + qTotal))
    let (o, ancount) := match entry with
      | none => (o, 0)
      | some entry => answerLoop outmax qtype entry.records o 0
    o.patch16 6 ancount

def RESP_SIZE : Nat := 4096

/-- What is sent for a datagram. -/
def dnsSocketHandler (config : Option DnsConfig) (data : Bytes) : Option Bytes :=
  match config with
  | none => none
  | some cfg =>
    if data.length < DNS_HDR_SIZE then none
    else
      let o := dnsBuildResponse data cfg RESP_SIZE
      if 0 < o.pos then some o.bytes else none

end DnsResponder
