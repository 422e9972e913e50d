import SecureTransfer.ApproachB.BrokerLinear
import SecureTransfer.ApproachB.Isolation
import SecureTransfer.ApproachB.Network

/-! # Jobs over connections to threads

The jobs and their connections as in a `Network`, but a thread reads a PUT or a GET, works on
the directory in steps between which other threads make theirs, and then replies. While no
thread disturbs the temporary file of another one, a network that carries out every command
at one moment does the same.
-/

namespace SecureTransfer.ApproachB

open Library

/-! ## Connections of a session -/

namespace ClientSession

/-- The connections in the order in which they were made. -/
def links (s : ClientSession) : List Link := s.abandoned ++ s.link.toList

def setLink (s : ClientSession) (c : Nat) (link : Link) : ClientSession :=
  if c < s.abandoned.length then { s with abandoned := s.abandoned.set c link } else { s with link := some link }

end ClientSession

/-- The actions of `_run`. -/
def ClientAction.Own : ClientAction → Prop
  | .connect | .send _ | .receive _ _ | .fail => True
  | .begin _ | .serve _ | .serveAbandoned _ _ | .others _ => False

/-! ## Commands of a thread -/

namespace BlobCommand

def request : BlobCommand → Request
  | .put key data => .put key data
  | .get key => .get key

/-- The frames that are sent for a reply. -/
def frames (repr : String → String) (command : BlobCommand) : BlobReply → List Bytes
  | .ok => [encodeText "OK".toList]
  | .blob data => [encodeText "OK".toList, data]
  | .missing => [encodeText "MISSING".toList]
  | .illegalKey => [encodeText (illegalKeyText repr command.request.arg)]

end BlobCommand

/-- A command that a thread can read, other than a PUT that is refused. -/
structure BlobCommand.Legal (command : BlobCommand) : Prop where
  fits : command.request.Fits
  storable : ∀ key data, command = .put key data → ∃ path, safePath key = some path ∧ path.2 ≠ "."

/-- What LIST finds in the directory: the names that are not temporary, sorted. -/
def Threads.Lists {κ : Type} (s : Threads κ) (start : String) (keys : List String) : Prop :=
  ∃ paths : List BlobPath, paths.Pairwise (fun a b => toLex a < toLex b) ∧
    (∀ path, path ∈ paths ↔ (s.files.names path).isSome ∧ isTmp path.2 = false) ∧
    keys = (paths.map fun path => path.1 ++ "/" ++ path.2).filter fun key => start.toList.isPrefixOf key.toList

/-! ## The network -/

section Networks

variable {ι : Type} {γ : ι → Type}

/-- The handling of one command: of a client, on a connection of it, behind the commands that
    this connection brought before. -/
abbrev ThreadId (ι : Type) : Type := ι × Nat × Nat

/-- The directory with the threads at work on it, their commands, how many commands were answered
    on each connection, and a job and a session for each client. -/
structure ThreadedNetwork (γ : ι → Type) where
  threads : Threads (ThreadId ι)
  commands : ThreadId ι → BlobCommand
  answered : ι → Nat → Nat
  parties : ∀ i, Party (γ i)
  sessions : ι → ClientSession

namespace ThreadedNetwork

/-- The storage directory is empty. -/
def start (parties : ∀ i, Party (γ i)) : ThreadedNetwork γ where
  threads := .start
  commands _ := .get ""
  answered _ _ := 0
  parties := parties
  sessions _ := .start .empty

/-- What a thread handles or waits for on a connection. -/
def thread (f : ThreadedNetwork γ) (i : ι) (c : Nat) : ThreadId ι := (i, c, f.answered i c)

/-- The job has made no call yet. -/
def Unused (f : ThreadedNetwork γ) (i : ι) : Prop := (f.sessions i).call = none ∧ (f.sessions i).log = []

/-- The directory shows the store, but for the temporary names in use. -/
def Displays (f : ThreadedNetwork γ) (store : Storage) : Prop :=
  ∀ path, ¬ f.threads.Uses path → f.threads.content path = store.find path

variable [DecidableEq ι]

def moves (f : ThreadedNetwork γ) (i : ι) (s : ClientSession) : ThreadedNetwork γ :=
  { f with sessions := Function.update f.sessions i s }

def movesOn (f : ThreadedNetwork γ) (i : ι) (s : ClientSession) (party : Party (γ i)) : ThreadedNetwork γ :=
  { f.moves i s with parties := Function.update f.parties i party }

/-- The thread of the connection `c` of the client `i` took `command` from `link`, of which `rest` is left. -/
def reads (f : ThreadedNetwork γ) (i : ι) (c : Nat) (command : BlobCommand) (link : Link) (rest : Bytes) :
    ThreadedNetwork γ where
  threads := f.threads.setStage (f.thread i c) (received command)
  commands := Function.update f.commands (f.thread i c) command
  answered := f.answered
  parties := f.parties
  sessions := Function.update f.sessions i ((f.sessions i).setLink c { link with inbox := rest })

/-- It sent its reply. -/
def replies (f : ThreadedNetwork γ) (i : ι) (c : Nat) (link : Link) (frames : List Bytes) : ThreadedNetwork γ where
  threads := f.threads
  commands := f.commands
  answered := Function.update f.answered i (Function.update (f.answered i) c (f.answered i c + 1))
  parties := f.parties
  sessions := Function.update f.sessions i
    ((f.sessions i).setLink c { link with outbox := link.outbox ++ frames.flatMap frame })

/-- A job calls for its next command, a session makes a step, a call ends and its job goes on; or a
    thread reads a command, makes a step on the directory, sends its reply, or serves a LIST, which
    opens no file, with one look. No thread disturbs another one. What arrived in a frame goes into a
    frame, and a LIST of 2^64 bytes or more gets no reply. -/
inductive Step (repr : String → String) (text : ClientError → String) (f : ThreadedNetwork γ) :
    ThreadedNetwork γ → Prop where
  | begin (i : ι) {c : BrokerCall} {next : c.Reply → Party (γ i)} {s : ClientSession} (asks : f.parties i = .ask c next)
      (moved : ClientSession.step repr (.begin c.request) (f.sessions i) = some s) : Step repr text f (f.moves i s)
  | work (i : ι) {a : ClientAction} {s : ClientSession} (own : a.Own)
      (moved : ClientSession.step repr a (f.sessions i) = some s) (log : s.log = (f.sessions i).log) :
      Step repr text f (f.moves i s)
  | finish (i : ι) {a : ClientAction} {s : ClientSession} {c : BrokerCall} {next : c.Reply → Party (γ i)}
      {ended : Ended} (own : a.Own) (moved : ClientSession.step repr a (f.sessions i) = some s)
      (log : s.log = (f.sessions i).log ++ [ended]) (asks : f.parties i = .ask c next) :
      Step repr text f (f.movesOn i s (next (c.reply text ended.outcome)))
  | read (i : ι) (c : Nat) {command : BlobCommand} {link : Link} {rest : Bytes}
      (there : (f.sessions i).links[c]? = some link) (serving : link.serving = true) (legal : command.Legal)
      (arrived : link.inbox = command.request.bytes ++ rest) (waiting : f.threads.stages (f.thread i c) = .waiting) :
      Step repr text f (f.reads i c command link rest)
  | turn (i : ι) (c count : Nat) {threads : Threads (ThreadId ι)}
      (undisturbed : f.threads.Undisturbed f.commands (.next (f.thread i c) count))
      (moved : f.threads.step f.commands (.next (f.thread i c) count) = some threads) :
      Step repr text f { f with threads }
  | reply (i : ι) (c : Nat) {reply : BlobReply} {link : Link} (there : (f.sessions i).links[c]? = some link)
      (done : f.threads.stages (f.thread i c) = .answered reply) :
      Step repr text f (f.replies i c link ((f.commands (f.thread i c)).frames repr reply))
  | list (i : ι) (c : Nat) {start : String} {keys : List String} {link : Link} {rest : Bytes}
      (there : (f.sessions i).links[c]? = some link) (serving : link.serving = true) (fits : (Request.list start).Fits)
      (arrived : link.inbox = (Request.list start).bytes ++ rest)
      (waiting : f.threads.stages (f.thread i c) = .waiting) (found : f.threads.Lists start keys)
      (small : Sendable (encodeText (joinLines keys))) :
      Step repr text f (f.moves i ((f.sessions i).setLink c { link with
        inbox := rest
        outbox := link.outbox ++ [encodeText "OK".toList, encodeText (joinLines keys)].flatMap frame }))

end ThreadedNetwork

end Networks

end SecureTransfer.ApproachB
