import SecureTransfer.ApproachB.ThreadedNetwork

/-! # Two sessions whose connections differ

A session whose connections wait for their threads, and one in which every command is served at one
moment: what the client of the first does, the client of the second can do as well.
-/

namespace SecureTransfer.ApproachB

open Library

variable {repr : String → String}

/-! ## Twins -/

/-- A call apart from what the threads did for it. -/
def Ongoing.bare (call : Ongoing) : Ongoing := { call with turns := [] }

def Ended.bare (ended : Ended) : Ended := { ended with turns := [] }

/-- The sessions differ in what is on their connections only, as `rel` says of each; a connection is
    `busy` while a thread handles a command of it, and the client then waits for the reply. -/
structure Twin (rel : Nat → Link → Link → Prop) (busy : Nat → Prop) (s a : ClientSession) : Prop where
  length : s.abandoned.length = a.abandoned.length
  links : ∀ c, Option.Rel (rel c) s.links[c]? a.links[c]?
  call : s.call.map Ongoing.bare = a.call.map Ongoing.bare
  log : s.log.map Ended.bare = a.log.map Ended.bare
  opened : ∀ c, busy c → c < s.links.length
  waits : busy s.abandoned.length → s.link = some .fresh ∧ ∃ call, s.call = some call ∧ call.rest = some []

namespace ClientSession

variable {s a : ClientSession} {c : Nat} {link : Link}

theorem links_current (s : ClientSession) : s.links[s.abandoned.length]? = s.link := by
  rw [links, List.getElem?_append_right le_rfl, Nat.sub_self]
  cases s.link with
  | none | some => rfl

theorem drop_links (s : ClientSession) : s.drop.links = s.links := List.append_nil _

theorem drop_length (s : ClientSession) : s.drop.abandoned.length = s.links.length := rfl

theorem setLink_links (there : c < s.links.length) (link : Link) : (s.setLink c link).links = s.links.set c link := by
  rw [setLink]
  split
  · rename_i before
    exact (List.set_append_left _ _ before).symm
  · rename_i last
    rw [links, List.length_append] at there
    rw [links, links, List.set_append_right _ _ (not_lt.mp last)]
    cases here : s.link with
    | none =>
        rw [here] at there
        exact absurd there last
    | some old =>
        rw [here] at there
        have zero : c - s.abandoned.length = 0 := Nat.sub_eq_zero_of_le (Nat.le_of_lt_succ there)
        rw [zero]
        rfl

theorem setLink_length (c : Nat) (link : Link) : (s.setLink c link).abandoned.length = s.abandoned.length := by
  rw [setLink]
  split
  · exact List.length_set
  · rfl

theorem setLink_call (c : Nat) (link : Link) : (s.setLink c link).call = s.call ∧ (s.setLink c link).log = s.log := by
  rw [setLink]
  split <;> exact ⟨rfl, rfl⟩

theorem setLink_link (there : c < s.links.length) (link : Link) :
    (s.setLink c link).link = if c = s.abandoned.length then some link else s.link := by
  rw [← links_current, setLink_links there, setLink_length, List.getElem?_set, links_current]
  split
  · rfl
  · rfl

theorem step_connect {r : Request} {attempt : Nat} {turns : List Turn} {lost : Bool}
    (here : s.call = some ⟨r, attempt, none, turns, lost⟩) :
    step repr .connect s = some { s with
      link := some (s.link.getD .fresh), call := some ⟨r, attempt, some r.bytes, turns, lost⟩ } := by
  simp only [step, here]

theorem step_send {r : Request} {attempt : Nat} {rest : Bytes} {turns : List Turn} {lost : Bool} (count : Nat)
    (here : s.call = some ⟨r, attempt, some rest, turns, lost⟩) (there : s.link = some link) :
    step repr (.send count) s = some { s with
      link := some { link with inbox := link.inbox ++ rest.take count }
      call := some ⟨r, attempt, some (rest.drop count), turns, lost⟩ } := by
  simp only [step, here, there]

theorem step_fail {call : Ongoing} (here : s.call = some call) : step repr .fail s = some (s.retry call) := by
  rw [step, here, Option.map_some]

theorem step_receive_fails {call : Ongoing} {arrived : Nat} {pace : List Nat} {failure : Failure} {conn : Sock}
    (ongoing : s.call = some call) (here : s.link = some link) (sent : call.rest = some [])
    (run : parseReply call.request ⟨link.outbox.take arrived, pace, []⟩ = (.error (.io failure), conn)) :
    step repr (.receive arrived pace) s = some (s.retry call) := by
  simp only [step, ongoing, here, sent, if_true, run]

theorem retry_store (call : Ongoing) : (s.retry call).store = s.store := by
  unfold retry
  simp only
  split <;> rfl

theorem links_open (here : s.link = none) (call : Option Ongoing) :
    ({ s with link := some link, call } : ClientSession).links = s.links ++ [link] := by
  rw [links, links, here, List.append_assoc]
  rfl

theorem links_set {old : Link} (here : s.link = some old) (now : a.link = some link)
    (same : a.abandoned = s.abandoned) : a.links = s.links.set s.abandoned.length link := by
  rw [links, links, here, now, same, List.set_append_right _ _ le_rfl, Nat.sub_self]
  rfl

theorem links_same (here : s.links[c]? = some link) : s.links = s.links.set c link := by
  obtain ⟨inside, rfl⟩ := List.getElem?_eq_some_iff.mp here
  exact (List.set_getElem_self inside).symm

theorem retry_links (call : Ongoing) : (s.retry call).links = s.links := by
  unfold retry
  simp only
  split
  · exact drop_links s
  · exact drop_links s

theorem retry_length (call : Ongoing) : (s.retry call).abandoned.length = s.links.length := by
  unfold retry
  simp only
  split <;> rfl

end ClientSession

/-- What `rel` says of the connections. -/
def Idles (rel : Nat → Link → Link → Prop) (busy : Nat → Prop) : Prop :=
  ∀ {c l l'}, ¬ busy c → (rel c l l' ↔ l = l')

namespace Twin

variable {rel rel' : Nat → Link → Link → Prop} {busy busy' : Nat → Prop} {s a s' a' : ClientSession} {c : Nat}

theorem total (twin : Twin rel busy s a) : s.links.length = a.links.length := by
  have same : ∀ c, s.links.length ≤ c ↔ a.links.length ≤ c := by
    intro c
    rw [← List.getElem?_eq_none_iff, ← List.getElem?_eq_none_iff]
    have both := twin.links c
    cases left : s.links[c]? with
    | none =>
        rw [left] at both
        cases right : a.links[c]? with
        | none => exact Iff.rfl
        | some =>
            rw [right] at both
            cases both
    | some =>
        rw [left] at both
        cases right : a.links[c]? with
        | none =>
            rw [right] at both
            cases both
        | some => exact ⟨nofun, nofun⟩
  exact le_antisymm ((same _).mpr le_rfl) ((same _).mp le_rfl)

theorem there (twin : Twin rel busy s a) {l : Link} (here : s.links[c]? = some l) :
    ∃ l', a.links[c]? = some l' ∧ rel c l l' := by
  have both := twin.links c
  rw [here] at both
  cases found : a.links[c]? with
  | none =>
      rw [found] at both
      cases both
  | some l' =>
      rw [found] at both
      cases both with
      | some related => exact ⟨l', rfl, related⟩

theorem current (twin : Twin rel busy s a) {l : Link} (here : s.link = some l) :
    ∃ l', a.link = some l' ∧ rel s.abandoned.length l l' := by
  rw [← ClientSession.links_current] at here
  obtain ⟨l', found, related⟩ := twin.there here
  rw [twin.length, ClientSession.links_current] at found
  exact ⟨l', found, related⟩

theorem ongoing (twin : Twin rel busy s a) {call : Ongoing} (here : s.call = some call) :
    ∃ call', a.call = some call' ∧ call'.bare = call.bare := by
  have same := twin.call
  rw [here, Option.map_some] at same
  obtain ⟨call', found, bare⟩ := Option.map_eq_some_iff.mp same.symm
  exact ⟨call', found, bare⟩

theorem ongoing' (twin : Twin rel busy s a) {call : Ongoing} (here : a.call = some call) (sent : call.rest = some []) :
    ∃ call', s.call = some call' ∧ call'.rest = some [] := by
  have same := twin.call
  rw [here, Option.map_some] at same
  obtain ⟨call', found, bare⟩ := Option.map_eq_some_iff.mp same
  exact ⟨call', found, (Ongoing.mk.inj bare).2.2.1.trans sent⟩

theorem no_call (twin : Twin rel busy s a) : s.call = none ↔ a.call = none := by
  rw [← Option.map_eq_none_iff (f := Ongoing.bare), twin.call, Option.map_eq_none_iff]

theorem no_link (twin : Twin rel busy s a) : s.link = none ↔ a.link = none := by
  have both := twin.links s.abandoned.length
  rw [ClientSession.links_current, twin.length, ClientSession.links_current] at both
  cases left : s.link with
  | none =>
      rw [left] at both
      cases right : a.link with
      | none => exact Iff.rfl
      | some =>
          rw [right] at both
          cases both
  | some =>
      rw [left] at both
      cases right : a.link with
      | none =>
          rw [right] at both
          cases both
      | some => exact ⟨nofun, nofun⟩

/-- A connection changes on both sides. -/
theorem change (twin : Twin rel busy s a) {l l' : Link} (links : s'.links = s.links.set c l)
    (links' : a'.links = a.links.set c l') (length : s'.abandoned.length = s.abandoned.length)
    (length' : a'.abandoned.length = a.abandoned.length) (call : s'.call.map Ongoing.bare = a'.call.map Ongoing.bare)
    (log : s'.log.map Ended.bare = a'.log.map Ended.bare) (related : rel' c l l') (others : ∀ d, d ≠ c → rel' d = rel d)
    (opened : ∀ d, busy' d → d < s.links.length)
    (waits : busy' s.abandoned.length → s'.link = some .fresh ∧ ∃ call, s'.call = some call ∧ call.rest = some []) :
    Twin rel' busy' s' a' where
  length := length.trans (twin.length.trans length'.symm)
  links d := by
    rw [links, links', List.getElem?_set, List.getElem?_set, twin.total]
    split
    · rename_i same
      subst same
      split
      · exact .some related
      · exact .none
    · rename_i other
      rw [others d (Ne.symm other)]
      exact twin.links d
  call := call
  log := log
  opened d here := by
    rw [links, List.length_set]
    exact opened d here
  waits := by
    rw [length]
    exact waits

/-- A thread changes a connection, and its twin has that change or none. -/
theorem setLink (twin : Twin rel busy s a) (inside : c < s.links.length) {link l' : Link}
    (links' : a'.links = a.links.set c l') (length' : a'.abandoned.length = a.abandoned.length)
    (call' : a'.call.map Ongoing.bare = a.call.map Ongoing.bare) (log' : a'.log = a.log) (related : rel' c link l')
    (others : ∀ d, d ≠ c → rel' d = rel d ∧ (busy' d ↔ busy d))
    (current : c = s.abandoned.length → busy' c →
      link = .fresh ∧ ∃ call, s.call = some call ∧ call.rest = some []) :
    Twin rel' busy' (s.setLink c link) a' := by
  obtain ⟨call, log⟩ := ClientSession.setLink_call (s := s) c link
  refine twin.change (ClientSession.setLink_links inside link) links' (ClientSession.setLink_length c link) length'
    ?_ ?_ related (fun d other => (others d other).1) (fun d used => ?_) (fun used => ?_)
  · rw [call, call']
    exact twin.call
  · rw [log, log']
    exact twin.log
  · by_cases here : d = c
    · rw [here]
      exact inside
    · exact twin.opened d ((others d here).2.mp used)
  · rw [ClientSession.setLink_link inside, call]
    by_cases here : c = s.abandoned.length
    · rw [if_pos here]
      rw [← here] at used
      obtain ⟨rfl, ongoing⟩ := current here used
      exact ⟨rfl, ongoing⟩
    · rw [if_neg here]
      exact twin.waits ((others _ (Ne.symm here)).2.mp used)

theorem retry (twin : Twin rel busy s a) {call call' : Ongoing} (same : call'.bare = call.bare) :
    Twin rel busy (s.retry call) (a.retry call') where
  length := by
    rw [ClientSession.retry_length, ClientSession.retry_length]
    exact twin.total
  links c := by
    rw [ClientSession.retry_links, ClientSession.retry_links]
    exact twin.links c
  call := by
    obtain ⟨r, attempt, rest, turns, lost⟩ := call
    cases call'
    cases same
    unfold ClientSession.retry
    simp only
    split <;> rfl
  log := by
    obtain ⟨r, attempt, rest, turns, lost⟩ := call
    cases call'
    cases same
    unfold ClientSession.retry
    simp only
    split
    · exact twin.log
    · change (s.log ++ [_]).map _ = (a.log ++ [_]).map _
      rw [List.map_append, List.map_append, twin.log]
      rfl
  opened c used := by
    rw [ClientSession.retry_links]
    exact twin.opened c used
  waits used := by
    rw [ClientSession.retry_length] at used
    exact absurd (twin.opened _ used) (lt_irrefl _)

variable {t : ClientSession}

theorem connect (twin : Twin rel busy s a) (idles : Idles rel busy)
    (moved : ClientSession.step repr .connect s = some t) :
    ∃ t', ClientSession.step repr .connect a = some t' ∧ t'.store = a.store ∧ Twin rel busy t t' := by
  rw [ClientSession.step] at moved
  split at moved
  · rename_i r attempt turns lost ongoing
    cases moved
    obtain ⟨⟨r', attempt', rest', turns', lost'⟩, ongoing', bare⟩ := twin.ongoing ongoing
    cases bare
    have free : ¬ busy s.abandoned.length := by
      intro used
      obtain ⟨_, call, here, sent⟩ := twin.waits used
      rw [ongoing] at here
      cases here
      cases sent
    refine ⟨_, ClientSession.step_connect ongoing', rfl, ?_⟩
    cases here : s.link with
    | none =>
        have here' := twin.no_link.mp here
        have total := twin.total
        refine ⟨twin.length, fun c => ?_, rfl, twin.log, fun c used => ?_, fun used => absurd used free⟩
        · rw [ClientSession.links_open here, ClientSession.links_open here', here']
          rcases Nat.lt_or_ge c s.links.length with old | new
          · rw [List.getElem?_append_left old, List.getElem?_append_left (total ▸ old)]
            exact twin.links c
          · rw [List.getElem?_append_right new, List.getElem?_append_right (total ▸ new), total]
            cases c - a.links.length with
            | zero => exact .some ((idles fun used => absurd (twin.opened c used) (not_lt.mpr new)).mpr rfl)
            | succ => exact .none
        · rw [ClientSession.links_open here, List.length_append]
          exact Nat.lt_add_right _ (twin.opened c used)
    | some l =>
        obtain ⟨l', here', related⟩ := twin.current here
        obtain rfl := (idles free).mp related
        have kept : ∀ (x : ClientSession) (call : Option Ongoing), x.link = some l →
            ({ x with link := some l, call } : ClientSession).links = x.links := by
          intro x call open_link
          rw [ClientSession.links, ClientSession.links, open_link]
        refine ⟨twin.length, fun c => ?_, rfl, twin.log, fun c used => ?_, fun used => absurd used free⟩
        · rw [here', Option.getD_some, kept s _ here, kept a _ here']
          exact twin.links c
        · rw [Option.getD_some, kept s _ here]
          exact twin.opened c used
  · cases moved

theorem send (twin : Twin rel busy s a) (idles : Idles rel busy) {count : Nat}
    (moved : ClientSession.step repr (.send count) s = some t) :
    ∃ t', ClientSession.step repr (.send count) a = some t' ∧ t'.store = a.store ∧ Twin rel busy t t' := by
  rw [ClientSession.step] at moved
  split at moved
  · rename_i r attempt rest turns lost link ongoing here
    cases moved
    obtain ⟨⟨r', attempt', rest', turns', lost'⟩, ongoing', bare⟩ := twin.ongoing ongoing
    cases bare
    obtain ⟨link', here', related⟩ := twin.current here
    refine ⟨_, ClientSession.step_send count ongoing' here', rfl, ?_⟩
    have sent : busy s.abandoned.length → rest = [] ∧ link = .fresh := by
      intro used
      obtain ⟨fresh, call, mine, sent⟩ := twin.waits used
      rw [ongoing] at mine
      cases mine
      exact ⟨Option.some.inj sent, Option.some.inj (here.symm.trans fresh)⟩
    have related' : rel s.abandoned.length { link with inbox := link.inbox ++ rest.take count }
        { link' with inbox := link'.inbox ++ rest.take count } := by
      by_cases used : busy s.abandoned.length
      · rw [(sent used).1, List.take_nil, List.append_nil, List.append_nil]
        exact related
      · obtain rfl := (idles used).mp related
        exact (idles used).mpr rfl
    refine twin.change (ClientSession.links_set here rfl rfl) ?_ rfl rfl rfl twin.log related' (fun _ _ => rfl)
      twin.opened ?_
    · rw [twin.length]
      exact ClientSession.links_set here' rfl rfl
    · intro used
      obtain ⟨rfl, rfl⟩ := sent used
      exact ⟨by rw [List.take_nil]; rfl, _, rfl, congrArg some List.drop_nil⟩
  · cases moved

theorem receive (twin : Twin rel busy s a) (idles : Idles rel busy) {arrived : Nat} {pace : List Nat}
    (moved : ClientSession.step repr (.receive arrived pace) s = some t) :
    ∃ arrived' t', ClientSession.step repr (.receive arrived' pace) a = some t' ∧ t'.store = a.store ∧
      Twin rel busy t t' := by
  rw [ClientSession.step] at moved
  split at moved
  · rename_i call link ongoing here
    obtain ⟨call', ongoing', bare⟩ := twin.ongoing ongoing
    obtain ⟨link', here', related⟩ := twin.current here
    have request : call'.request = call.request := (Ongoing.mk.inj bare).1
    have rest : call'.rest = call.rest := (Ongoing.mk.inj bare).2.2.1
    split at moved
    · rename_i sent
      have sent' := rest.trans sent
      by_cases used : busy s.abandoned.length
      · -- nothing of the reply is on its way, and the twin looks at nothing of it
        obtain ⟨fresh, _⟩ := twin.waits used
        obtain rfl := Option.some.inj (here.symm.trans fresh)
        have silent : Unframed (Sock.mk (Link.fresh.outbox.take arrived) pace []).incoming := by
          rw [Link.fresh, List.take_nil]
          exact unframed_nil
        have silent' : Unframed (Sock.mk (link'.outbox.take 0) pace []).incoming := by
          rw [List.take_zero]
          exact unframed_nil
        obtain ⟨failure, conn, failed⟩ := parseReply_nothing call.request silent
        obtain ⟨failure', conn', failed'⟩ := parseReply_nothing call'.request silent'
        rw [failed] at moved
        cases moved
        exact ⟨0, _, ClientSession.step_receive_fails ongoing' here' sent' failed', ClientSession.retry_store _,
          twin.retry bare⟩
      · obtain rfl := (idles used).mp related
        refine ⟨arrived, ?_⟩
        split at moved
        · rename_i failure conn failed
          cases moved
          exact ⟨_, ClientSession.step_receive_fails ongoing' here' sent' (request ▸ failed),
            ClientSession.retry_store _, twin.retry bare⟩
        · rename_i outcome conn answered run
          cases moved
          refine ⟨_, ClientSession.step_receive ongoing' here' sent' (request ▸ run) answered, rfl, ?_⟩
          refine twin.change (ClientSession.links_set here rfl rfl) ?_ rfl rfl rfl ?_ ((idles used).mpr rfl)
            (fun _ _ => rfl) twin.opened fun again => absurd again used
          · rw [twin.length]
            exact ClientSession.links_set here' rfl rfl
          · obtain ⟨r, attempt, rest, turns, lost⟩ := call
            cases call'
            cases bare
            change (s.log ++ [_]).map _ = (a.log ++ [_]).map _
            rw [List.map_append, List.map_append, twin.log]
            rfl
    · cases moved
  · cases moved

/-- What the client does, its twin can do. -/
theorem own (twin : Twin rel busy s a) (idles : Idles rel busy) {action : ClientAction} (own : action.Own)
    (moved : ClientSession.step repr action s = some t) :
    ∃ action' t', action'.Own ∧ ClientSession.step repr action' a = some t' ∧ t'.store = a.store ∧
      Twin rel busy t t' := by
  cases action with
  | begin | serve | serveAbandoned | others => exact False.elim own
  | connect => exact ⟨.connect, (twin.connect idles moved).imp fun _ moved' => ⟨trivial, moved'⟩⟩
  | send count => exact ⟨.send count, (twin.send idles moved).imp fun _ moved' => ⟨trivial, moved'⟩⟩
  | receive arrived pace =>
      obtain ⟨arrived', t', moved'⟩ := twin.receive idles moved
      exact ⟨.receive arrived' pace, t', trivial, moved'⟩
  | fail =>
      obtain ⟨call, ongoing, rfl⟩ := Option.map_eq_some_iff.mp moved
      obtain ⟨call', ongoing', bare⟩ := twin.ongoing ongoing
      exact ⟨.fail, _, trivial, ClientSession.step_fail ongoing', ClientSession.retry_store _, twin.retry bare⟩

theorem begin {r : Request} (twin : Twin rel busy s a) (moved : ClientSession.step repr (.begin r) s = some t) :
    ∃ t', ClientSession.step repr (.begin r) a = some t' ∧ t'.store = a.store ∧ Twin rel busy t t' := by
  rw [ClientSession.step] at moved
  split at moved
  · rename_i free
    cases moved
    have idle := Option.isNone_iff_eq_none.mp free.1
    refine ⟨_, ClientSession.step_begin free.2 (twin.no_call.mp idle), rfl, twin.length, twin.links, rfl, twin.log,
      twin.opened, fun used => ?_⟩
    obtain ⟨_, call, here, _⟩ := twin.waits used
    rw [idle] at here
    cases here
  · cases moved

end Twin

/-! ## One action of a session -/

theorem ClientSession.own_log {s t : ClientSession} {action : ClientAction} (own : action.Own)
    (moved : ClientSession.step repr action s = some t) : t.log = s.log ∨ ∃ ended, t.log = s.log ++ [ended] := by
  have retried : ∀ call, (s.retry call).log = s.log ∨ ∃ ended, (s.retry call).log = s.log ++ [ended] := by
    intro call
    unfold ClientSession.retry
    simp only
    split
    · exact .inl rfl
    · exact .inr ⟨_, rfl⟩
  cases action with
  | begin | serve | serveAbandoned | others => exact False.elim own
  | connect =>
      rw [step] at moved
      split at moved <;> cases moved
      exact .inl rfl
  | send count =>
      rw [step] at moved
      split at moved <;> cases moved
      exact .inl rfl
  | receive arrived pace =>
      rw [step] at moved
      split at moved
      · split at moved
        · split at moved
          · cases moved
            exact retried _
          · cases moved
            exact .inr ⟨_, rfl⟩
        · cases moved
      · cases moved
  | fail =>
      obtain ⟨call, _, rfl⟩ := Option.map_eq_some_iff.mp moved
      exact retried call

namespace Twin

variable {rel : Nat → Link → Link → Prop} {busy : Nat → Prop} {s a t t' : ClientSession} {action : ClientAction}

theorem log_length (twin : Twin rel busy s a) : a.log.length = s.log.length := by
  rw [← List.length_map (f := Ended.bare), ← twin.log, List.length_map]

theorem same_log (twin : Twin rel busy s a) (after : Twin rel busy t t') (own : action.Own)
    (moved : ClientSession.step repr action a = some t') (log : t.log = s.log) : t'.log = a.log := by
  rcases ClientSession.own_log own moved with same | ⟨ended, more⟩
  · exact same
  · have lengths := after.log_length
    rw [log, more, ← twin.log_length, List.length_append] at lengths
    exact absurd lengths (Nat.succ_ne_self _)

theorem ended (twin : Twin rel busy s a) (after : Twin rel busy t t') (own : action.Own)
    (moved : ClientSession.step repr action a = some t') {ended : Ended} (log : t.log = s.log ++ [ended]) :
    ∃ ended', t'.log = a.log ++ [ended'] ∧ ended'.outcome = ended.outcome := by
  rcases ClientSession.own_log own moved with same | ⟨ended', more⟩
  · have lengths := after.log_length
    rw [log, same, twin.log_length, List.length_append] at lengths
    exact absurd lengths.symm (Nat.succ_ne_self _)
  · refine ⟨ended', more, ?_⟩
    have logs := after.log
    rw [log, more, List.map_append, List.map_append, twin.log] at logs
    have last := List.append_cancel_left logs
    exact (Ended.mk.inj (List.singleton_injective last)).2.1.symm

theorem store (twin : Twin rel busy s a) (store : Storage) : Twin rel busy s { a with store } :=
  ⟨twin.length, twin.links, twin.call, twin.log, twin.opened, twin.waits⟩

theorem congr {rel' : Nat → Link → Link → Prop} {busy' : Nat → Prop} (twin : Twin rel busy s a)
    (same : ∀ c, rel' c = rel c ∧ (busy' c ↔ busy c)) : Twin rel' busy' s a := by
  obtain rfl : rel' = rel := funext fun c => (same c).1
  obtain rfl : busy' = busy := funext fun c => propext (same c).2
  exact twin

end Twin

/-! ## One turn of a thread -/

/-- The network serves a command on any connection. -/
theorem ClientSession.serve_link {a : ClientSession} {c : Nat} {link next : Link} {turn : Turn} {store : Storage}
    (there : a.links[c]? = some link) (turned : link.turn repr [] a.store = some (turn, store, next)) :
    ∃ action t', action.Works ∧ step repr action a = some t' ∧ t'.store = store ∧ t'.links = a.links.set c next ∧
      t'.abandoned.length = a.abandoned.length ∧ t'.call.map Ongoing.bare = a.call.map Ongoing.bare ∧
      t'.log = a.log := by
  rcases Nat.lt_or_ge c a.abandoned.length with before | last
  · have here : a.abandoned[c]? = some link := by
      rw [← there, links, List.getElem?_append_left before]
    refine ⟨.serveAbandoned c [], { a with store, abandoned := a.abandoned.set c next }, trivial, ?_, rfl, ?_,
      List.length_set, rfl, rfl⟩
    · rw [step, here]
      simp only [turned, Option.map_some]
    · exact (List.set_append_left _ _ before).symm
  · have same : c = a.abandoned.length := by
      have inside := (List.getElem?_eq_some_iff.mp there).1
      rw [links, List.length_append] at inside
      have one := Option.length_toList_le (o := a.link)
      omega
    subst same
    rw [links_current] at there
    let calling := a.call.map fun call => { call with turns := call.turns ++ [turn] }
    refine ⟨.serve [], { a with store, link := some next, call := calling }, trivial, ?_, rfl,
      links_set there rfl rfl, rfl, ?_, rfl⟩
    · rw [step, there]
      simp only [turned, Option.map_some]
      rfl
    · change calling.map Ongoing.bare = _
      rw [Option.map_map]
      rfl

/-- On the client's own connection a whole command is that of its call, and nothing else is there. -/
theorem ClientSession.Kept.whole_command {a : ClientSession} (kept : a.Kept repr) {r : Request} {rest out : Bytes}
    (fits : r.Fits) {after : Storage} {found : List Bytes} (answered : answer repr .empty r = some (after, found))
    (small : ∀ reply ∈ found, Sendable reply) (there : a.link = some ⟨r.bytes ++ rest, out, true⟩) :
    rest = [] ∧ out = [] ∧ ∃ call, a.call = some call ∧ call.rest = some [] := by
  have arrived : r.bytes ++ rest ≠ [] := List.append_ne_nil_of_left_ne_nil (bytes_ne_nil r) _
  by_cases resting : a.Resting
  · exact absurd (congrArg Link.inbox (kept.resting resting _ there)) arrived
  simp only [Resting, not_forall] at resting
  obtain ⟨call, ongoing, begun⟩ := resting
  obtain ⟨left, sending⟩ := Option.ne_none_iff_exists'.mp begun
  obtain ⟨link, same, flight⟩ := kept.flight call left ongoing sending
  rw [there] at same
  cases same
  have first : ∀ turns, InFlight repr call.request ⟨r.bytes ++ rest, out, true⟩ left turns →
      r.bytes ++ rest ++ left = call.request.bytes ∧ out = [] := by
    intro turns flight
    cases flight with
    | command serving outbox sent => exact ⟨sent, outbox⟩
    | reply read inbox => exact absurd inbox arrived
  obtain ⟨sent, empty⟩ := first _ flight
  have turned := turn_bytes [] fits answered small rest out
  have took := Link.took (kept.fits call ongoing) ⟨left, sent⟩ turned
  have nothing : left = [] := by
    have whole : r.bytes ++ rest = call.request.bytes := took.arrived
    rw [← whole] at sent
    exact List.append_right_eq_self.mp sent
  exact ⟨took.inbox, empty, call, ongoing, by rw [sending, nothing]⟩

end SecureTransfer.ApproachB
