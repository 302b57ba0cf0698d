import NanoProxy.ProxyExchange

/-!
# Raw forwarding (include/request.h)

One forwarded connection. Nothing of HTTP is looked at here.
-/

namespace ForwardRelay

open CLib ProxyExchange

inductive ForwardProto where
  | tcp
  | udp
  | unix
  deriving DecidableEq

structure ForwardState where
  upstreamFd : Nat
  connected : Bool
  upstreamProto : ForwardProto
  upBuf : Option Bytes
  upSent : Nat

/-- What `forward_on_accept` stores. -/
def forwardStart (proto : ForwardProto) (upstreamFd : Nat) : ForwardState where
  upstreamFd := upstreamFd
  connected := proto = .udp
  upstreamProto := proto
  upBuf := none
  upSent := 0

/-- The write part of `forward_on_upstream_event`; `none` stands for a failed connect. A
failed send is tried again with the next event. -/
def forwardOnUpstreamWrite (soerr : Bool) (r : WriteResult) (fs : ForwardState) :
    Option ForwardState :=
  if !fs.connected && soerr then none else
  let fs := { fs with connected := true }
  let waiting := (fs.upBuf.getD []).drop fs.upSent
  if waiting = [] then some fs else
  let n := (r.taken waiting.length).getD 0
  if n = waiting.length then some { fs with upBuf := none, upSent := 0 }
  else some { fs with upSent := fs.upSent + n }

/-- `forward_on_downstream_data`; `none` stands for a failed send. -/
def forwardOnDownstreamData (data : Bytes) (r : WriteResult) (fs : ForwardState) :
    Option ForwardState :=
  if fs.upstreamProto = .udp then some fs
  else if !fs.connected then some { fs with upBuf := some (fs.upBuf.getD [] ++ data) }
  else match r.taken data.length with
    | none => none
    | some n =>
      if n < data.length then some { fs with upBuf := some (fs.upBuf.getD [] ++ data.drop n) }
      else some fs

theorem forwardOnUpstreamWrite_upstreamFd {soerr : Bool} {r : WriteResult}
    {fs fs' : ForwardState} (h : forwardOnUpstreamWrite soerr r fs = some fs') :
    fs'.upstreamFd = fs.upstreamFd := by
  unfold forwardOnUpstreamWrite at h
  split at h
  · cases h
  dsimp only at h
  split at h
  · cases h
    rfl
  split at h
  · cases h
    rfl
  · cases h
    rfl

theorem forwardOnDownstreamData_upstreamFd {data : Bytes} {r : WriteResult}
    {fs fs' : ForwardState} (h : forwardOnDownstreamData data r fs = some fs') :
    fs'.upstreamFd = fs.upstreamFd := by
  unfold forwardOnDownstreamData at h
  split at h
  · cases h
    rfl
  split at h
  · cases h
    rfl
  split at h
  · cases h
  split at h
  · cases h
    rfl
  · cases h
    rfl

end ForwardRelay
