import Mathlib.Data.Rat.Defs
import Mathlib.Data.List.Dedup
import Mathlib.Data.List.Sort
import Mathlib.Tactic.Linarith
import PurdueAF.Dict
import PurdueAF.Machine

/-!
# The polls of the Mattermost agent

The server's posts, written, edited and deleted at increasing times, and `Agent.poll` between
its awaits: the look for conversations, one request a channel, one a thread. Any of them may
fail.
-/
namespace PurdueAF.Mattermost
open Machine

def channelsSeconds : ℚ := 60

structure Post where
  id : String
  channel : String
  user : String
  createAt : ℕ
  updateAt : ℕ
  deleteAt : ℕ := 0
  kind : String := ""
  message : String
  root : String := ""
  /-- Whether `str(props.get("from_bot", "")).lower()` is `true`. -/
  fromBot : Bool := false
  deriving DecidableEq, Repr

/-- What no edit changes. -/
structure Key where
  id : String
  channel : String
  createAt : ℕ
  deriving DecidableEq, Repr

def Post.key (p : Post) : Key := ⟨p.id, p.channel, p.createAt⟩

/-- The bot's own id, and its two expressions as searches. -/
structure Bot where
  me : String
  mention : String → Bool
  atName : String → Bool

section Selection
variable (bot : Bot)

/-- Written by someone, other bots left out. -/
def person (post : Post) : Bool :=
  post.deleteAt = 0 && post.kind = "" && post.user ≠ bot.me && !post.fromBot

def byAPerson (post : Post) (cursor : ℕ) : Bool := cursor < post.createAt && person bot post

def wanted (direct : List String) (post : Post) (cursor : ℕ) : Bool :=
  byAPerson bot post cursor && (direct.contains post.channel || bot.mention post.message)

/-- Whether `replies_to_bot` comes to ask for the thread. -/
def asksThread (post : Post) (cursor : ℕ) : Bool :=
  post.root ≠ "" && byAPerson bot post cursor && !bot.atName post.message

/-- A post as the loop finds it: in a direct message or not, and, where it asked, whether the
bot posted in its thread. -/
structure Sight where
  post : Post
  direct : Bool
  inThread : Bool
  deriving DecidableEq, Repr

/-- What `wanted` and `replies_to_bot` make of a new post. -/
def Sight.selected (x : Sight) : Bool :=
  person bot x.post && ((x.direct || bot.mention x.post.message) ||
    (x.post.root ≠ "" && !bot.atName x.post.message && x.inThread))

end Selection

/-- What the requests of `channels` answer: the bot's channel, whether its team was found, and
the bot's channels there with their types. -/
structure Look where
  found : Option String
  named : Bool
  mine : List (String × String)
  deriving Repr

/-- The bot's channel, its direct and its group messages. -/
def channels (look : Look) : Option String × List String × List String :=
  let typed (kind : String) : List String := (look.mine.filter fun c => c.2 = kind).map Prod.fst
  match look.found with
  | some home => (some home, typed "D", typed "G")
  | none => if look.named then (none, typed "D", typed "G") else (none, [], [])

inductive Pc
  | idle
  | looking (now : ℚ)
  /-- Awaiting `latest`, without a cursor, or `since`. -/
  | fetching (channel : String) (cursor : Option ℕ) (todo : List String)
  /-- Awaiting the thread of `post`; `taken` is the time of the answer being read. -/
  | reading (channel : String) (cursor taken : ℕ) (post : Post) (posts : List Post)
      (todo : List String)
  deriving DecidableEq, Repr

/-- The server's posts and time, the agent's fields, and a record of what happened: where each
channel's polling began, what was seen, and the time of the last answer read to its end. -/
structure Sys where
  posts : List Post
  clock : ℕ
  cursors : Dict String ℕ
  home : Option String
  direct : List String
  groups : List String
  channelsAt : ℚ
  pc : Pc
  handled : List String
  began : Dict String ℕ
  sights : List Sight
  finished : Dict String ℕ

/-- The server's times are after 1. -/
def start (clock : ℕ) : Sys := ⟨[], clock + 1, [], none, [], [], 0, .idle, [], [], [], []⟩

inductive Action
  | write (post : Post) (time : ℕ)
  | edit (id message : String) (time : ℕ)
  | delete (id : String) (time : ℕ)
  /-- A poll begins. -/
  | poll (now : ℚ)
  /-- The look ends: with an error, or with what it found. -/
  | looked (look : Option Look)
  /-- A request for a channel's posts ends: none for an error that ends the poll, `false` for one
  that Mattermost refuses. -/
  | fetched (answered : Option Bool)
  /-- The request for a thread ends. -/
  | thread (answered : Bool)

/-- Server time of the channel's newest post. -/
def latest (posts : List Post) (channel : String) : ℕ :=
  ((posts.filter fun p => p.channel = channel && p.deleteAt = 0).getLast?.map Post.updateAt).getD 0

def since (posts : List Post) (channel : String) (cursor : ℕ) : List Post :=
  (posts.filter fun p => p.channel = channel && cursor < p.updateAt).insertionSort
    fun p q => p.createAt ≤ q.createAt

def threadOf (posts : List Post) (post : Post) : List Post :=
  posts.filter fun p => (p.id = post.root || p.root = post.root) && p.deleteAt = 0

def nextChannel (s : Sys) : List String → Sys
  | [] => { s with pc := .idle }
  | channel :: todo => { s with pc := .fetching channel (s.cursors.get? channel) todo }

/-- The channels of a poll, in its order. -/
def polled (s : Sys) : List String :=
  s.home.toList ++ (s.direct ++ s.groups).dedup.insertionSort (· ≤ ·)

/-- The conversations that a look finds and the last one did not. -/
def appeared (s : Sys) (look : Look) : List String :=
  let (_, direct, groups) := channels look
  (direct ++ groups).dedup.filter fun c => !(s.direct ++ s.groups).contains c

def beginAt (s : Sys) (channel : String) (cursor : ℕ) : Sys :=
  { s with cursors := s.cursors.set channel cursor, began := s.began.set channel cursor }

def setLook (s : Sys) (look : Look) (now : ℚ) : Sys :=
  let s := if s.channelsAt = 0 then s else (appeared s look).foldl (fun s c => beginAt s c 1) s
  let (home, direct, groups) := channels look
  { s with home := home, direct := direct, groups := groups, channelsAt := now }

def advance (s : Sys) (channel : String) (post : Post) : Sys :=
  { s with cursors := s.cursors.set channel (max ((s.cursors.get? channel).getD 0) post.updateAt) }

/-- The loop is done with a post: `handles` if it starts `handle`. Only a new one is a sight. -/
def settle (s : Sys) (cursor : ℕ) (x : Sight) (handles : Bool) : Sys :=
  { s with
    handled := s.handled ++ if handles then [x.post.id] else []
    sights := s.sights ++ if cursor < x.post.createAt then [x] else [] }

/-- The loop over the posts of a channel, up to the next thread it asks for. -/
def readPosts (bot : Bot) (channel : String) (cursor taken : ℕ) (todo : List String) (s : Sys) :
    List Post → Sys
  | [] => nextChannel { s with finished := s.finished.set channel taken } todo
  | post :: posts =>
    let s := advance s channel post
    let direct := s.direct.contains post.channel
    if wanted bot s.direct post cursor then
      readPosts bot channel cursor taken todo (settle s cursor ⟨post, direct, false⟩ true) posts
    else if asksThread bot post cursor then
      { s with pc := .reading channel cursor taken post posts todo }
    else readPosts bot channel cursor taken todo (settle s cursor ⟨post, direct, false⟩ false) posts

def stamp (s : Sys) (time : ℕ) (posts : List Post) : Option Sys :=
  if s.clock < time then some { s with posts := posts, clock := time } else none

def step (bot : Bot) (s : Sys) : Action → Option Sys
  | .write post time =>
    if post.id ∈ s.posts.map Post.id then none
    else stamp s time (s.posts ++ [{ post with createAt := time, updateAt := time, deleteAt := 0 }])
  | .edit id message time =>
    stamp s time (s.posts.map fun p =>
      if p.id = id then { p with message := message, updateAt := time } else p)
  | .delete id time =>
    stamp s time (s.posts.map fun p =>
      if p.id = id then { p with deleteAt := time, updateAt := time } else p)
  | .poll now =>
    match s.pc with
    | .idle =>
      if s.channelsAt = 0 ∨ channelsSeconds < now - s.channelsAt then
        some { s with pc := .looking now }
      else some (nextChannel s (polled s))
    | _ => none
  | .looked answer =>
    match s.pc, answer with
    | .looking _, none => some { s with pc := .idle }
    | .looking now, some look => some (nextChannel (setLook s look now) (polled (setLook s look now)))
    | _, _ => none
  | .fetched answer =>
    match s.pc, answer with
    | .fetching .., none => some { s with pc := .idle }
    | .fetching _ _ todo, some false => some (nextChannel s todo)
    | .fetching channel none todo, some true =>
      some (nextChannel (beginAt s channel (latest s.posts channel)) todo)
    | .fetching channel (some cursor) todo, some true =>
      some (readPosts bot channel cursor s.clock todo s (since s.posts channel cursor))
    | _, _ => none
  | .thread answered =>
    match s.pc with
    | .reading channel cursor taken post posts todo =>
      if answered then
        let mine := (threadOf s.posts post).any fun p => p.user = bot.me
        let x : Sight := ⟨post, s.direct.contains post.channel, mine⟩
        some (readPosts bot channel cursor taken todo (settle s cursor x mine) posts)
      else some { s with pc := .idle }
    | _ => none

end PurdueAF.Mattermost
