import NanoProxy.CeJsonBuilding

/-!
# The post responses of the JIT backend (jit_backend/api.cy)

The rows are what the queries return. A page of posts gets 120 nodes for each post that it may
hold and 64 more; the response to a new post gets 256. Nothing limits the media of a post.
-/

namespace JitPosts

open CLib CeJson

/-- A column that is NULL is `none`. -/
structure MediaRow where
  type : Option Bytes
  url : Option Bytes

structure CommentRow where
  username : Option Bytes
  text : Option Bytes

structure CountsRow where
  likeCount : Int64
  liked : Int64
  commentCount : Int64

/-- A post with the rows that `post_to_json` queries for it, at most three comments. -/
structure PostRow where
  id : Int64
  type : Option Bytes
  text : Option Bytes
  quote : Option Bytes
  userId : Int64
  username : Option Bytes
  displayName : Option Bytes
  media : List MediaRow
  comments : List CommentRow
  counts : Option CountsRow

/-- `(disp && disp[0]) ? disp : uname` -/
def PostRow.user (r : PostRow) : Option Bytes :=
  match r.displayName with
  | none => r.username
  | some disp => if cstring disp = [] then r.username else some disp

def PostRow.likes (r : PostRow) : Int64 :=
  match r.counts with
  | none => 0
  | some c => c.likeCount

def PostRow.liked (r : PostRow) : Bool :=
  match r.counts with
  | none => false
  | some c => 0 < c.liked

def PostRow.commentCount (r : PostRow) : Int64 :=
  match r.counts with
  | none => 0
  | some c => c.commentCount

/-- `JB_FIELD` -/
def jbField (obj : Option Nat) (key : Bytes) (value : Building (Option Nat)) : Building Unit := do
  let k ← jbKey key
  let v ← value
  jbAttach obj k v

def mediaLoop (media : Option Nat) : List MediaRow → Building Unit
  | [] => return ()
  | m :: rows => do
    let mi ← jbObject
    jbField mi (ascii "type") (jbString m.type)
    jbField mi (ascii "url") (jbString m.url)
    jbAppend media mi
    mediaLoop media rows

def commentLoop (comments : Option Nat) : List CommentRow → Building Unit
  | [] => return ()
  | c :: rows => do
    let ci ← jbObject
    jbField ci (ascii "author") (jbString c.username)
    jbField ci (ascii "text") (jbString c.text)
    jbAppend comments ci
    commentLoop comments rows

def postToJson (outArray : Option Nat) (viewer : Int64) (r : PostRow) : Building (Option Nat) := do
  let d ← jbObject
  jbField d (ascii "id") (jbInt r.id)
  jbField d (ascii "user") (jbString r.user)
  jbField d (ascii "timestamp") (jbString (some (ascii "Just now")))
  jbField d (ascii "type") (jbString r.type)
  jbField d (ascii "text") (jbString r.text)
  jbField d (ascii "quote") (jbString r.quote)
  let mediaKey ← jbKey (ascii "media")
  let media ← jbArray
  mediaLoop media r.media
  jbAttach d mediaKey media
  let commentsKey ← jbKey (ascii "comments")
  let comments ← jbArray
  commentLoop comments r.comments
  jbAttach d commentsKey comments
  jbField d (ascii "likes") (jbInt r.likes)
  jbField d (ascii "liked") (jbBool r.liked)
  jbField d (ascii "comment_count") (jbInt r.commentCount)
  jbField d (ascii "owned_by_me") (jbBool (0 < viewer && r.userId == viewer))
  match outArray with
  | none => return d
  | some arr => do
    jbAppend (some arr) d
    return d

def postLoop (arr : Option Nat) (viewer : Int64) : List PostRow → Building Unit
  | [] => return ()
  | r :: rows => do
    let _ ← postToJson arr viewer r
    postLoop arr viewer rows

/-- `count` of `h_get_posts`, between 1 and 50. -/
def pageCount (count : Int) : Nat :=
  if count < 1 then 10 else if 50 < count then 50 else count.toNat

/-- The body of the response, unless an access is invalid. -/
def hGetPosts (viewer : Int64) (count : Int) (rows : List PostRow) : Option Bytes :=
  respond (pageCount count * 120 + 64) do
    let arr ← jbArray
    postLoop arr viewer rows
    return arr

/-- The response of `h_create_post`, with the post as it was stored. -/
def hCreatePost (viewer : Int64) (r : PostRow) : Option Bytes :=
  respond 256 (postToJson none viewer r)

def str (s : Option Bytes) : Doc := .string (s.getD [])

def mediaDoc (m : MediaRow) : Doc :=
  .object [(ascii "type", str m.type), (ascii "url", str m.url)]

def commentDoc (c : CommentRow) : Doc :=
  .object [(ascii "author", str c.username), (ascii "text", str c.text)]

def postDoc (viewer : Int64) (r : PostRow) : Doc :=
  .object [
    (ascii "id", .int r.id),
    (ascii "user", str r.user),
    (ascii "timestamp", .string (ascii "Just now")),
    (ascii "type", str r.type),
    (ascii "text", str r.text),
    (ascii "quote", str r.quote),
    (ascii "media", .array (r.media.map mediaDoc)),
    (ascii "comments", .array (r.comments.map commentDoc)),
    (ascii "likes", .int r.likes),
    (ascii "liked", .bool r.liked),
    (ascii "comment_count", .int r.commentCount),
    (ascii "owned_by_me", .bool (0 < viewer && r.userId == viewer))]

def pageDoc (viewer : Int64) (rows : List PostRow) : Doc := .array (rows.map (postDoc viewer))

theorem build_str (s : Option Bytes) : build (str s) = jbString s := by
  cases s <;> rfl

theorem mediaLoop_eq (media : Option Nat) (rows : List MediaRow) :
    mediaLoop media rows = buildElements media (rows.map mediaDoc) := by
  induction rows with
  | nil => rfl
  | cons m rows ih =>
    rw [List.map_cons, buildElements, mediaLoop, ih, mediaDoc, build]
    simp only [jbField, buildMembers, build_str, bind_assoc, pure_bind]

theorem commentLoop_eq (comments : Option Nat) (rows : List CommentRow) :
    commentLoop comments rows = buildElements comments (rows.map commentDoc) := by
  induction rows with
  | nil => rfl
  | cons c rows ih =>
    rw [List.map_cons, buildElements, commentLoop, ih, commentDoc, build]
    simp only [jbField, buildMembers, build_str, bind_assoc, pure_bind]

/-- `post_to_json` makes the calls for the document of its post. -/
theorem postToJson_eq (viewer : Int64) (r : PostRow) :
    postToJson none viewer r = build (postDoc viewer r) := by
  rw [postToJson, postDoc, build]
  simp only [jbField, buildMembers, build, build_str, mediaLoop_eq, commentLoop_eq, bind_assoc,
    pure_bind]

theorem postToJson_append (arr : Nat) (viewer : Int64) (r : PostRow) :
    postToJson (some arr) viewer r = (do
      let d ← postToJson none viewer r
      jbAppend (some arr) d
      return d) := by
  rw [postToJson, postToJson]
  simp only [bind_assoc, pure_bind]

theorem postLoop_eq (arr : Option Nat) (viewer : Int64) (rows : List PostRow) :
    postLoop arr viewer rows = buildElements arr (rows.map (postDoc viewer)) := by
  induction rows with
  | nil => rfl
  | cons r rows ih =>
    rw [List.map_cons, buildElements, postLoop, ih]
    cases arr with
    | none =>
      have ignored (value : Option Nat) : jbAppend none value = pure () := rfl
      simp only [postToJson_eq, ignored, pure_bind]
    | some arr =>
      rw [postToJson_append, postToJson_eq]
      simp only [bind_assoc, pure_bind]

theorem elementsSize_map {α : Type} (doc : α → Doc) {n : Nat} (each : ∀ a, (doc a).size = n)
    (rows : List α) : elementsSize (rows.map doc) = n * rows.length := by
  induction rows with
  | nil => rfl
  | cons a rows ih =>
    rw [List.map_cons, elementsSize, ih, each, List.length_cons, Nat.mul_succ, Nat.add_comm]

theorem str_size (s : Option Bytes) : (str s).size = 1 := rfl

/-- The nodes of a post: 25, and 5 more for each of its media and of its comments. -/
def postNodes (r : PostRow) : Nat := 25 + 5 * r.media.length + 5 * r.comments.length

theorem postDoc_size (viewer : Int64) (r : PostRow) : (postDoc viewer r).size = postNodes r := by
  have media := elementsSize_map mediaDoc (n := 5) (fun _ => rfl) r.media
  have comments := elementsSize_map commentDoc (n := 5) (fun _ => rfl) r.comments
  simp only [postDoc, Doc.size, membersSize, str_size, media, comments, postNodes]
  omega

def pageNodes (rows : List PostRow) : Nat := 1 + (rows.map postNodes).sum

theorem pageDoc_size (viewer : Int64) (rows : List PostRow) :
    (pageDoc viewer rows).size = pageNodes rows := by
  have posts : elementsSize (rows.map (postDoc viewer)) = (rows.map postNodes).sum := by
    induction rows with
    | nil => rfl
    | cons r rows ih =>
      rw [List.map_cons, elementsSize, ih, postDoc_size, List.map_cons, List.sum_cons]
  rw [pageDoc, Doc.size, posts, pageNodes, Nat.add_comm]

theorem hGetPosts_eq (viewer : Int64) (count : Int) (rows : List PostRow) :
    hGetPosts viewer count rows =
      respond (pageCount count * 120 + 64) (build (pageDoc viewer rows)) := by
  rw [hGetPosts, pageDoc, build]
  simp only [postLoop_eq]

theorem pageCount_le (count : Int) : pageCount count ≤ 50 := by
  unfold pageCount
  split
  · decide
  split
  · decide
  · omega

theorem hGetPosts_exact (viewer : Int64) (count : Int) (rows : List PostRow) :
    (hGetPosts viewer count rows = some (text false (pageDoc viewer rows)) ↔
      pageNodes rows ≤ 120 * pageCount count + 64 ∧ textFits (pageDoc viewer rows) = true) ∧
    (120 * pageCount count + 64 < pageNodes rows → hGetPosts viewer count rows = none) := by
  have page := pageCount_le count
  have budget : max 1 (pageCount count * 120 + 64) = 120 * pageCount count + 64 := by omega
  rw [hGetPosts_eq, ← pageDoc_size viewer]
  constructor
  · rw [respond_exact _ (by omega), budget]
  · intro crowded
    exact respond_none (build_counts _) (by omega)

theorem hCreatePost_exact (viewer : Int64) (r : PostRow) :
    (hCreatePost viewer r = some (text false (postDoc viewer r)) ↔
      r.media.length + r.comments.length ≤ 46 ∧ textFits (postDoc viewer r) = true) ∧
    (46 < r.media.length + r.comments.length → hCreatePost viewer r = none) := by
  have nodes : (postDoc viewer r).size = 25 + 5 * r.media.length + 5 * r.comments.length :=
    postDoc_size viewer r
  rw [hCreatePost, postToJson_eq]
  constructor
  · rw [respond_exact _ (by decide), nodes]
    constructor
    · rintro ⟨room, fitting⟩
      exact ⟨by omega, fitting⟩
    · rintro ⟨room, fitting⟩
      exact ⟨by omega, fitting⟩
  · intro crowded
    refine respond_none (build_counts _) ?_
    rw [nodes]
    omega

/-- The response to a page request and to a new post is the JSON text of the posts if and only if
their nodes fit into the array and the text into the buffer. With more nodes, which is up to the
media of the posts, an access is invalid. -/
theorem post_responses_exact (viewer : Int64) (count : Int) (rows : List PostRow) (r : PostRow) :
    (hGetPosts viewer count rows = some (text false (pageDoc viewer rows)) ↔
      pageNodes rows ≤ 120 * pageCount count + 64 ∧ textFits (pageDoc viewer rows) = true) ∧
    (120 * pageCount count + 64 < pageNodes rows → hGetPosts viewer count rows = none) ∧
    (hCreatePost viewer r = some (text false (postDoc viewer r)) ↔
      r.media.length + r.comments.length ≤ 46 ∧ textFits (postDoc viewer r) = true) ∧
    (46 < r.media.length + r.comments.length → hCreatePost viewer r = none) := by
  obtain ⟨page, page_over⟩ := hGetPosts_exact viewer count rows
  obtain ⟨post, post_over⟩ := hCreatePost_exact viewer r
  exact ⟨page, page_over, post, post_over⟩

def samplePost : PostRow where
  id := 7
  type := some (ascii "text")
  text := some (ascii "a \"b\"")
  quote := none
  userId := 1
  username := some (ascii "ann")
  displayName := none
  media := [⟨some (ascii "image"), some (ascii "/u/1")⟩]
  comments := []
  counts := none

example : hCreatePost 1 samplePost = some (ascii ("\x7b\"id\":7,\"user\":\"ann\"," ++
    "\"timestamp\":\"Just now\",\"type\":\"text\",\"text\":\"a \\\"b\\\"\"," ++
    "\"quote\":\"\",\"media\":[\x7b\"type\":\"image\",\"url\":\"/u/1\"\x7d]," ++
    "\"comments\":[],\"likes\":0,\"liked\":false,\"comment_count\":0," ++
    "\"owned_by_me\":true\x7d")) := by decide +kernel

end JitPosts
