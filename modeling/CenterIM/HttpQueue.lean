import CenterIM.HttpClient
import CenterIM.Runs

/-!
# Every request is acknowledged once

Whatever the client is told about its socket, it acknowledges the requests in the order of the
queue, unless a second challenge is thrown as an exception when the length of the response was
already reached: then one exception removes two requests.
-/
namespace CenterIM.HttpQueue
open ByteText HttpClient Runs

/-- What was acknowledged and what is queued is what was put in the queue, in its order, and no
response counts for another request than the one that was sent on its connection. -/
def Accounted (c : HTTPClient) : Prop :=
  c.acks.map (·.ev.id) ++ c.queue.map (·.id) = c.queued ∧ ∀ a ∈ c.acks, ∀ r ∈ a.sent, r = a.ev.id

instance (c : HTTPClient) : Decidable (Accounted c) := inferInstanceAs (Decidable (_ ∧ _))

def Busy (c : HTTPClient) : Prop := ∃ ev q, c.queue = ev :: q ∧ ∀ r ∈ c.sent, r = ev.id

structure Inv (c : HTTPClient) : Prop where
  account : Accounted c
  idle : c.state = .notConnected → c.sock = .notConnected
  busy : c.sock ≠ .notConnected → Busy c

theorem Inv.disconnect {c : HTTPClient} (h : Accounted c) : Inv c.Disconnect :=
  ⟨h, fun _ => rfl, fun hs => absurd rfl hs⟩

/-- Another request object takes the place of the one at the front. -/
theorem Accounted.front {c c' : HTTPClient} (h : Accounted c) {ev ev' : HTTPRequestEvent}
    {q : List HTTPRequestEvent} (hq : c.queue = ev :: q) (hid : ev'.id = ev.id)
    (hq' : c'.queue = ev' :: q) (ha : c'.acks = c.acks) (hd : c'.queued = c.queued) : Accounted c' := by
  obtain ⟨h1, h2⟩ := h
  rw [hq] at h1
  rw [Accounted, hq', ha, hd]
  refine ⟨?_, h2⟩
  rw [← h1, List.map_cons, List.map_cons, hid]

theorem Accounted.pop {c c' : HTTPClient} (h : Accounted c) {ev ev' : HTTPRequestEvent}
    {q : List HTTPRequestEvent} {sent : List ℕ} (hq : c.queue = ev :: q)
    (hsent : ∀ r ∈ sent, r = ev.id) (hq' : c'.queue = q) (ha : c'.acks = c.acks ++ [⟨ev', sent⟩])
    (hd : c'.queued = c.queued) (hid : ev'.id = ev.id) : Accounted c' := by
  obtain ⟨h1, h2⟩ := h
  rw [hq] at h1
  rw [Accounted, hq', ha, hd]
  constructor
  · rw [← h1, List.map_append, List.map_singleton, hid, List.append_assoc]
    rfl
  · intro a hm r hr
    rcases List.mem_append.mp hm with hm | hm
    · exact h2 a hm r hr
    · obtain rfl := List.mem_singleton.mp hm
      exact (hsent r hr).trans hid.symm

/-- What an attempt to connect does to a queue that is not empty: it fails, and the request is
acknowledged, or a connection for the request is on its way. -/
theorem Connect_cases {c : HTTPClient} {ev : HTTPRequestEvent} {q : List HTTPRequestEvent}
    (hq : c.queue = ev :: q) : ∃ ev' c', c.Connect = some c' ∧ c'.recv = {} ∧ c'.queued = c.queued ∧
      ((c'.acks = c.acks ++ [⟨ev', []⟩] ∧ c'.queue = q ∧ c'.state = .notConnected ∧
          c'.sock = .notConnected) ∨
        (c'.acks = c.acks ∧ c'.queue = ev' :: q ∧ c'.sent = [] ∧ c'.state = .waitingForConnect ∧
          c'.sock ≠ .notConnected ∧ c'.lastOperation = c.now ∧ c'.timeout = c.timeout)) ∧
      ev'.id = ev.id := by
  rw [HTTPClient.Connect, hq]
  dsimp only
  by_cases ht : ev.connectTries > 10
  · rw [if_pos ht]
    exact ⟨_, _, rfl, rfl, rfl, .inl ⟨rfl, rfl, rfl, rfl⟩, rfl⟩
  · rw [if_neg ht, HTTPClient.openSocket]
    rcases hn : c.net with _ | ⟨_ | _ | _, net⟩
    · exact ⟨_, _, rfl, rfl, rfl, .inl ⟨rfl, rfl, rfl, rfl⟩, rfl⟩
    · exact ⟨_, _, rfl, rfl, rfl, .inl ⟨rfl, rfl, rfl, rfl⟩, rfl⟩
    · exact ⟨_, _, rfl, rfl, rfl, .inr ⟨rfl, rfl, rfl, rfl, nofun, rfl, rfl⟩, rfl⟩
    · exact ⟨_, _, rfl, rfl, rfl, .inr ⟨rfl, rfl, rfl, rfl, nofun, rfl, rfl⟩, rfl⟩

theorem Connect_spec {c : HTTPClient} (h : Accounted c) (hs : c.sock = .notConnected) :
    ∃ c', c.Connect = some c' ∧ Inv c' ∧ (c.queue ≠ [] → c'.recv = {}) := by
  cases hq : c.queue with
  | nil =>
    refine ⟨c, by rw [HTTPClient.Connect, hq], ⟨h, fun _ => hs, fun hn => absurd hs hn⟩,
      fun hn => absurd rfl hn⟩
  | cons ev q =>
    obtain ⟨ev', c', hc, hr, hd, ⟨ha, hq', hst, hsk⟩ | ⟨ha, hq', hsent, hst, hsk, -⟩, hid⟩ :=
      Connect_cases hq
    · exact ⟨c', hc, ⟨h.pop hq (by simp) hq' ha hd hid, fun _ => hsk, fun hn => absurd hsk hn⟩, fun _ => hr⟩
    · refine ⟨c', hc, ⟨h.front hq hid hq' ha hd, fun hn => ?_,
        fun _ => ⟨ev', q, hq', by simp [hsent]⟩⟩, fun _ => hr⟩
      rw [hst] at hn
      cases hn

theorem Inv.touch {c c' : HTTPClient} (h : Inv c) {ev ev' : HTTPRequestEvent}
    {q : List HTTPRequestEvent} (hq : c.queue = ev :: q) (hq' : c'.queue = ev' :: q)
    (hid : ev'.id = ev.id) (ha : c'.acks = c.acks) (hd : c'.queued = c.queued)
    (hsent : c'.sent = c.sent) (hsock : c'.sock = c.sock)
    (hst : c'.state = .notConnected → c.state = .notConnected) : Inv c' := by
  refine ⟨h.account.front hq hid hq' ha hd, fun hn => hsock.trans (h.idle (hst hn)), fun hn => ?_⟩
  obtain ⟨ev₁, q₁, hq₁, hs⟩ := h.busy (hsock ▸ hn)
  obtain ⟨rfl, rfl⟩ := List.cons.inj (hq.symm.trans hq₁)
  exact ⟨ev', q, hq', fun r hr => (hs r (hsent ▸ hr)).trans hid.symm⟩

/-- What holds while lines are read: a socket that was given up left an empty buffer. -/
def Reading (c : HTTPClient) : Prop := Inv c ∧ (c.sock = .notConnected → c.recv.data = [])

/-- What holds after lines were read; the socket is still there when an exception is thrown. -/
def Parsed (c : HTTPClient) (thrown : Bool) : Prop :=
  Reading c ∧ (thrown = true → c.sock ≠ .notConnected)

theorem reconnect_spec {c : HTTPClient} (h : Inv c) (hs : c.sock ≠ .notConnected) :
    ∃ c', c.reconnect = some c' ∧ Reading c' := by
  obtain ⟨ev, q, hq, -⟩ := h.busy hs
  have hne : c.queue ≠ [] := by simp [hq]
  obtain ⟨c', hc, hi, hr⟩ := Connect_spec (Inv.disconnect h.account).account rfl
  exact ⟨c', hc, hi, fun _ => by rw [hr hne]⟩

theorem parseStatus_spec {c : HTTPClient} (h : Inv c) (hs : c.sock ≠ .notConnected) (response : Str) :
    ∃ c' thrown, c.parseStatus response = some (c', thrown) ∧ Parsed c' thrown := by
  obtain ⟨ev, q, hq, hsent⟩ := h.busy hs
  rw [HTTPClient.parseStatus]
  generalize HTTPClient.splitBlank response = r
  obtain ⟨word, rest⟩ := r
  dsimp only
  generalize (if word = none then (0 : UInt32) else _) = code
  split_ifs with hcode
  · exact ⟨_, _, rfl, ⟨⟨h.account, nofun, h.busy⟩, fun hn => absurd hn hs⟩, nofun⟩
  · rw [HTTPClient.front]
    simp only [hq]
    refine ⟨_, _, rfl, ⟨?_, fun hn => absurd hn hs⟩, fun _ => hs⟩
    exact h.touch hq rfl rfl rfl rfl rfl rfl id

theorem authenticate_spec {c : HTTPClient} (h : Inv c) (hs : c.sock ≠ .notConnected) (rest : Str) :
    ∃ c' response thrown, c.authenticate rest = some (c', response, thrown) ∧ Parsed c' thrown := by
  obtain ⟨ev, q, hq, hsent⟩ := h.busy hs
  rw [HTTPClient.authenticate, hq]
  dsimp only
  have htouch : Inv { c with queue := { ev with authTries := ev.authTries + 1 } :: q } :=
    h.touch hq rfl rfl rfl rfl rfl rfl id
  split_ifs with htries
  · refine ⟨_, _, _, rfl, ⟨?_, fun hn => absurd hn hs⟩, fun _ => hs⟩
    exact htouch.touch rfl rfl rfl rfl rfl rfl rfl id
  · rcases HTTPClient.splitBlank rest with ⟨_ | word, params⟩
    · exact ⟨_, _, _, rfl, ⟨htouch, fun hn => absurd hn hs⟩, nofun⟩
    · obtain ⟨c', hc, hr⟩ := reconnect_spec htouch hs
      dsimp only
      rw [hc]
      exact ⟨_, _, _, rfl, hr, nofun⟩

theorem parseField_spec {c : HTTPClient} (h : Inv c) (hs : c.sock ≠ .notConnected)
    (head response rest : Str) : ∃ c' response' thrown,
      c.parseField head response rest = some (c', response', thrown) ∧ Parsed c' thrown := by
  rw [HTTPClient.parseField]
  split_ifs
  · obtain ⟨c', hc, hr⟩ := reconnect_spec h hs
    rw [hc]
    exact ⟨_, _, _, rfl, hr, nofun⟩
  · exact authenticate_spec h hs rest
  · exact ⟨_, _, _, rfl, ⟨h, fun hn => absurd hn hs⟩, nofun⟩

theorem parseHeader_spec {c : HTTPClient} (h : Inv c) (hs : c.sock ≠ .notConnected)
    (head response : Str) : ∃ c' head' thrown,
      c.parseHeader head response = some (c', head', thrown) ∧ Parsed c' thrown := by
  have hcontent : ∀ (c' : HTTPClient) (thrown : Bool) (p : Prop) [Decidable p], Parsed c' thrown →
      Parsed (if p then { c' with state := .receivingContent } else c') thrown := by
    intro c' thrown p _ hp
    split_ifs
    · exact ⟨⟨⟨hp.1.1.account, nofun, hp.1.1.busy⟩, hp.1.2⟩, hp.2⟩
    · exact hp
  rw [HTTPClient.parseHeader]
  generalize (HTTPClient.splitBlank response).2 = rest, HTTPClient.fieldName head response = head
  dsimp only
  have hnote : Inv (c.noteLength head rest) ∧ (c.noteLength head rest).sock = c.sock := by
    rw [HTTPClient.noteLength]
    split_ifs
    · exact ⟨⟨h.account, h.idle, h.busy⟩, rfl⟩
    · exact ⟨h, rfl⟩
  obtain ⟨c', response', thrown, hc, hp⟩ := parseField_spec hnote.1 (hnote.2 ▸ hs) head response rest
  rw [hc]
  exact ⟨_, _, _, rfl, hcontent c' thrown _ hp⟩

theorem parseLine_spec {c : HTTPClient} (h : Inv c) (hs : c.sock ≠ .notConnected)
    (head response : Str) : ∃ c' head' thrown,
      c.parseLine head response = some (c', head', thrown) ∧ Parsed c' thrown := by
  have hsame : Parsed c false := ⟨⟨h, fun hn => absurd hn hs⟩, nofun⟩
  rw [HTTPClient.parseLine]
  split
  · obtain ⟨c', thrown, hc, hp⟩ := parseStatus_spec h hs response
    rw [hc]
    exact ⟨c', head, thrown, rfl, hp⟩
  · exact parseHeader_spec h hs head response
  · exact ⟨_, _, _, rfl, ⟨⟨h.account, h.idle, h.busy⟩, fun hn => absurd hn hs⟩, nofun⟩
  · exact ⟨_, _, _, rfl, hsame⟩

theorem parseLoop_spec (fuel : ℕ) {c : HTTPClient} (h : Reading c) (head : Str) :
    ∃ c' thrown, HTTPClient.parseLoop fuel c head = some (c', thrown) ∧ Parsed c' thrown := by
  induction fuel generalizing c head with
  | zero => exact ⟨c, false, rfl, h, nofun⟩
  | succ fuel ih =>
    rw [HTTPClient.parseLoop]
    cases hu : c.recv.UnpackCRLFString with
    | none => exact ⟨c, false, rfl, h, nofun⟩
    | some r =>
      obtain ⟨line, recv⟩ := r
      have hs : c.sock ≠ .notConnected := fun hn => by
        rw [Buffer.UnpackCRLFString, h.2 hn] at hu
        simp at hu
      have hi : Inv { c with recv, lastOperation := c.now } := ⟨h.1.account, h.1.idle, h.1.busy⟩
      obtain ⟨c', head', thrown, hc, hp⟩ := parseLine_spec hi hs head (HTTPClient.chop line)
      simp only [hc, Option.bind_eq_bind, Option.bind_some]
      cases thrown with
      | true => exact ⟨c', true, rfl, hp⟩
      | false => exact ih hp.1 head'

theorem Parse_spec {c : HTTPClient} (h : Reading c) (hs : c.sock ≠ .notConnected) :
    ∃ c' thrown, c.Parse = some (c', thrown) ∧ Parsed c' thrown := by
  obtain ⟨ev, q, hq, -⟩ := h.1.busy hs
  rw [HTTPClient.Parse, if_neg (by simp [hq])]
  exact parseLoop_spec _ h []

/-- What holds when the loop of `Recv` has ended. -/
def Received (c : HTTPClient) : HTTPClient.Ended → Prop
  | .normally => Reading c
  | _ => Accounted c ∧ Busy c

theorem recvLoop_spec (rs : List RecvResult) {c : HTTPClient} (h : Reading c) :
    ∃ c' ended, HTTPClient.recvLoop rs c = some (c', ended) ∧ Received c' ended := by
  induction rs generalizing c with
  | nil => exact ⟨c, .normally, rfl, h⟩
  | cons r rs ih =>
    by_cases hsock : c.sock = .connected
    · have hs : c.sock ≠ .notConnected := by simp [hsock]
      cases r with
      | again => exact ⟨c, .normally, if_pos hsock, h⟩
      | closed => exact ⟨_, .socketException, if_pos hsock, h.1.account, h.1.busy hs⟩
      | data seg =>
        have hr : Reading { c with recv := c.recv.Pack seg } :=
          ⟨⟨h.1.account, h.1.idle, h.1.busy⟩, fun hn => absurd hn hs⟩
        obtain ⟨c', thrown, hc, hp, ht⟩ := Parse_spec hr hs
        rw [HTTPClient.recvLoop, if_pos hsock, hc, Option.bind_eq_bind, Option.bind_some]
        cases thrown with
        | true => exact ⟨c', .httpException, rfl, hp.1.account, hp.1.busy (ht rfl)⟩
        | false =>
          simp only [Bool.false_eq_true, if_false]
          split_ifs
          · exact ⟨c', .normally, rfl, hp⟩
          · exact ih hp
    · refine ⟨c, .normally, ?_, h⟩
      cases r <;> exact if_neg hsock

/-- The branch that removes two requests: an exception is thrown for a line of the response, in a
read event in which the length of the response was read and reached. -/
def Clashes (c : HTTPClient) (i : Input) : Prop :=
  ∃ rs c', i.event = .readable rs ∧ c.sock = .connected ∧
    HTTPClient.recvLoop rs { c.tick i with length := 0 } = some (c', .httpException) ∧ c'.lengthReached

theorem not_reached_of_empty {c : HTTPClient} (h : c.recv.data = []) : ¬c.lengthReached := by
  rintro ⟨hne, hle⟩
  rw [Buffer.size, h] at hle
  exact hne (UInt64.toNat_inj.mp (by simpa using hle))

theorem Recv_spec {c : HTTPClient} (h : Inv c) (hs : c.sock = .connected) {rs : List RecvResult}
    (hok : ∀ c', HTTPClient.recvLoop rs { c with length := 0 } = some (c', .httpException) →
      ¬c'.lengthReached) : ∃ c' thrown, c.Recv rs = some (c', thrown) ∧ Inv c' ∧
        (thrown = true → Busy c' ∧ c'.sock = .notConnected) := by
  have hr : Reading { c with length := 0 } :=
    ⟨⟨h.account, h.idle, h.busy⟩, fun hn => absurd (hs.symm.trans hn) nofun⟩
  obtain ⟨c', ended, hc, hp⟩ := recvLoop_spec rs hr
  rw [HTTPClient.Recv, hc, Option.bind_eq_bind, Option.bind_some]
  cases ended with
  | normally =>
    simp only
    split_ifs with hreach
    · have hs' : c'.sock ≠ .notConnected := fun hn => not_reached_of_empty (hp.2 hn) hreach
      exact ⟨_, true, rfl, .disconnect hp.1.account, fun _ => ⟨hp.1.busy hs', rfl⟩⟩
    · exact ⟨c', false, rfl, hp.1, nofun⟩
  | socketException => exact ⟨_, true, rfl, .disconnect hp.1, fun _ => ⟨hp.2, rfl⟩⟩
  | httpException =>
    have hreach : ¬c'.lengthReached := hok c' hc
    obtain ⟨ev, q, hq, hsent⟩ := hp.2
    simp only [HTTPClient.ackFront, hq]
    exact ⟨_, _, rfl, .disconnect (hp.1.pop hq hsent rfl rfl rfl rfl),
      fun ht => absurd (of_decide_eq_true ht) hreach⟩

theorem readable_spec {c : HTTPClient} (h : Inv c) {rs : List RecvResult}
    (hok : c.sock = .connected → ∀ c',
      HTTPClient.recvLoop rs { c with length := 0 } = some (c', .httpException) → ¬c'.lengthReached) :
    ∃ c', c.readable rs = some c' ∧ Inv c' := by
  rw [HTTPClient.readable]
  split_ifs with hs
  · obtain ⟨c', thrown, hc, hi, ht⟩ := Recv_spec h hs (hok hs)
    rw [hc, Option.bind_eq_bind, Option.bind_some]
    cases thrown with
    | false => exact ⟨c', rfl, hi⟩
    | true =>
      obtain ⟨⟨ev, q, hq, hsent⟩, hsock⟩ := ht rfl
      simp only [HTTPClient.finish, HTTPClient.ackFront, hq, if_true]
      exact ⟨_, rfl, hi.account.pop hq hsent rfl rfl rfl rfl, fun _ => hsock, fun hn => absurd hsock hn⟩
  · exact ⟨c, rfl, h⟩

theorem writable_spec {c : HTTPClient} (h : Inv c) (finishes sends : Bool) :
    ∃ c', c.writable finishes sends = some c' ∧ Inv c' := by
  rw [HTTPClient.writable]
  split_ifs with hs hf
  · obtain ⟨ev, q, hq, hsent⟩ := h.busy (by simp [hs])
    rw [HTTPClient.SendRequest, hq]
    dsimp only
    split_ifs
    · refine ⟨_, rfl, h.account.front hq rfl rfl rfl rfl, nofun, fun _ => ⟨ev, q, rfl, fun r hr => ?_⟩⟩
      rcases List.mem_append.mp hr with hr | hr
      · exact hsent r hr
      · exact List.mem_singleton.mp hr
    · exact ⟨_, rfl, .disconnect (h.account.front hq rfl rfl rfl rfl)⟩
  · exact ⟨_, rfl, h.account, fun _ => rfl, fun hn => absurd rfl hn⟩
  · exact ⟨c, rfl, h⟩

/-- What a poll does to a queue that is not empty while a request is under way. -/
theorem check_timeout_cases {c : HTTPClient} {ev : HTTPRequestEvent} {q : List HTTPRequestEvent}
    (hq : c.queue = ev :: q) : (c.now - c.lastOperation ≤ c.timeout ∧ c.check_timeout = some c) ∨
      ∃ ev' c', ev'.id = ev.id ∧ c.check_timeout = some c' ∧ c'.acks = c.acks ++ [⟨ev', []⟩] ∧
        c'.queue = q ∧ c'.queued = c.queued ∧ c'.sock = .notConnected := by
  rw [HTTPClient.check_timeout]
  split_ifs with ht
  · right
    simp only [HTTPClient.front, HTTPClient.ackFront, hq]
    exact ⟨{ ev with httpresp := bytes "Timed out", delivered := false, finished := true }, _, rfl, rfl,
      rfl, rfl, rfl, rfl⟩
  · exact .inl ⟨by omega, rfl⟩

theorem poll_spec {c : HTTPClient} (h : Inv c) : ∃ c', c.clearoutMessagesPoll = some c' ∧ Inv c' := by
  rw [HTTPClient.clearoutMessagesPoll]
  split_ifs with he hst
  · exact ⟨c, rfl, h⟩
  · obtain ⟨c', hc, hi, -⟩ := Connect_spec h.account (h.idle hst)
    exact ⟨c', hc, hi⟩
  · obtain ⟨ev, q, hq⟩ := List.exists_cons_of_ne_nil he
    obtain ⟨-, hc⟩ | ⟨ev', c', hid, hc, ha, hq', hd, hsk⟩ := check_timeout_cases hq
    · exact ⟨c, hc, h⟩
    · exact ⟨c', hc, h.account.pop hq (by simp) hq' ha hd hid, fun _ => hsk, fun hn => absurd hsk hn⟩

theorem SendEvent_spec {c : HTTPClient} (h : Inv c) (rev : HTTPRequestEvent) :
    ∃ c', c.SendEvent rev = some c' ∧ Inv c' := by
  rw [HTTPClient.SendEvent]
  split_ifs with hsame
  · exact ⟨c, rfl, h⟩
  · have hacc : Accounted { c with queue := c.queue ++ [rev], queued := c.queued ++ [rev.id] } := by
      refine ⟨?_, h.account.2⟩
      simp only [List.map_append, ← List.append_assoc, h.account.1, List.map_singleton]
    dsimp only
    split_ifs with hst
    · obtain ⟨c', hc, hi, -⟩ := Connect_spec hacc (h.idle hst)
      exact ⟨c', hc, hi⟩
    · refine ⟨_, rfl, hacc, h.idle, fun hn => ?_⟩
      obtain ⟨ev, q, hq, hsent⟩ := h.busy hn
      exact ⟨ev, q ++ [rev], by simp [hq], hsent⟩

theorem handle_spec {c : HTTPClient} (h : Inv c) {i : Input} (hok : ¬Clashes c i) :
    ∃ c', c.handle i = some c' ∧ Inv c' := by
  have hi : Inv (c.tick i) := ⟨h.account, h.idle, h.busy⟩
  rw [HTTPClient.handle]
  cases hev : i.event with
  | send rev => exact SendEvent_spec hi rev
  | poll => exact poll_spec hi
  | writable finishes sends => exact writable_spec hi finishes sends
  | readable rs => exact readable_spec hi fun hs c' hc hr => hok ⟨rs, c', hev, hs, hc, hr⟩

/-- What a poll does to a queue that is not empty: its first request is acknowledged, or it is
under way, since now or for a time that is not over. -/
theorem poll_cases {c : HTTPClient} {ev : HTTPRequestEvent} {q : List HTTPRequestEvent}
    (hq : c.queue = ev :: q) : ∃ ev' c', c.clearoutMessagesPoll = some c' ∧
      (c'.acks = c.acks ++ [⟨ev', []⟩] ∨
        (c'.acks = c.acks ∧ c'.queue = ev' :: q ∧ c'.state ≠ .notConnected ∧ c'.timeout = c.timeout ∧
          (c'.lastOperation = c.now ∨
            c'.lastOperation = c.lastOperation ∧ c.now - c.lastOperation ≤ c.timeout))) ∧
      ev'.id = ev.id := by
  rw [HTTPClient.clearoutMessagesPoll, if_neg (by simp [hq])]
  split_ifs with hst
  · obtain ⟨ev', c', hc, -, -, ⟨ha, -⟩ | ⟨ha, hq', -, hst', -, hlast, ht⟩, hid⟩ := Connect_cases hq
    · exact ⟨ev', c', hc, .inl ha, hid⟩
    · exact ⟨ev', c', hc, .inr ⟨ha, hq', by simp [hst'], ht, .inl hlast⟩, hid⟩
  · obtain ⟨ht, hc⟩ | ⟨ev', c', hid, hc, ha, -⟩ := check_timeout_cases hq
    · exact ⟨ev, c, hc, .inr ⟨rfl, hq, hst, rfl, .inr ⟨rfl, ht⟩⟩, rfl⟩
    · exact ⟨ev', c', hc, .inl ha, hid⟩

theorem poll_acks (c : HTTPClient) : ∃ c', c.clearoutMessagesPoll = some c' ∧ c.acks <+: c'.acks := by
  cases hq : c.queue with
  | nil => exact ⟨c, by rw [HTTPClient.clearoutMessagesPoll, if_pos hq], List.prefix_rfl⟩
  | cons ev q =>
    obtain ⟨ev', c', hc, ha | ⟨ha, -⟩, -⟩ := poll_cases hq
    · exact ⟨c', hc, ha ▸ List.prefix_append ..⟩
    · exact ⟨c', hc, ha ▸ List.prefix_rfl⟩

/-- After two polls, the second one later than the timeout, the request that was first in the
queue is acknowledged. -/
def Progresses (c : HTTPClient) : Prop :=
  ∀ ev q (i j : Input), c.queue = ev :: q → i.event = .poll → j.event = .poll →
    j.now - i.now > c.timeout → j.now - c.lastOperation > c.timeout →
    ∃ c₁ c₂ a, c.handle i = some c₁ ∧ c₁.handle j = some c₂ ∧ c.acks ++ [a] <+: c₂.acks ∧ a.ev.id = ev.id

theorem progresses (c : HTTPClient) : Progresses c := by
  intro ev q i j hq hi hj hij hlast
  have hpoll : ∀ (d : HTTPClient) (i : Input), i.event = .poll →
      d.handle i = (d.tick i).clearoutMessagesPoll := fun d i hi => by rw [HTTPClient.handle, hi]
  have hq₀ : (c.tick i).queue = ev :: q := hq
  obtain ⟨ev', c₁, hc₁, ha | ⟨ha, hq', hst, ht, hop⟩, hid⟩ := poll_cases hq₀
  · obtain ⟨c₂, hc₂, hp⟩ := poll_acks (c₁.tick j)
    refine ⟨c₁, c₂, ⟨ev', []⟩, (hpoll c i hi).trans hc₁, (hpoll c₁ j hj).trans hc₂, ?_, hid⟩
    have hacks : (c₁.tick j).acks = c.acks ++ [⟨ev', []⟩] := ha
    exact hacks ▸ hp
  · have hlate : ¬j.now - c₁.lastOperation ≤ c₁.timeout := by
      have ht' : c₁.timeout = c.timeout := ht
      have hop' : c₁.lastOperation = i.now ∨ c₁.lastOperation = c.lastOperation := hop.imp id And.left
      omega
    have hq₁ : (c₁.tick j).queue = ev' :: q := hq'
    have hcheck : (c₁.tick j).clearoutMessagesPoll = (c₁.tick j).check_timeout := by
      rw [HTTPClient.clearoutMessagesPoll, if_neg (by simp [hq₁])]
      exact if_neg hst
    obtain ⟨hle, -⟩ | ⟨ev'', c₂, hid', hc₂, ha₂, -⟩ := check_timeout_cases hq₁
    · exact absurd hle hlate
    · refine ⟨c₁, c₂, ⟨ev'', []⟩, (hpoll c i hi).trans hc₁,
        (hpoll c₁ j hj).trans (hcheck.trans hc₂), ?_, hid'.trans hid⟩
      have hacks : (c₁.tick j).acks = c.acks := ha
      rw [ha₂, hacks]

def Start (c : Option HTTPClient) : Prop := ∃ timeout, c = some { timeout }

def Step (c : Option HTTPClient) (i : Input) (c' : Option HTTPClient) : Prop :=
  ∃ d, c = some d ∧ c' = d.handle i

/-- The step does not take the branch that removes two requests. -/
def Ok (c : Option HTTPClient) (i : Input) : Prop := ∀ d, c = some d → ¬Clashes d i

def Fine (c : Option HTTPClient) : Prop := ∃ d, c = some d ∧ Inv d

theorem fine_step {c c' : Option HTTPClient} {i : Input} (h : Fine c) (hok : Ok c i)
    (hs : Step c i c') : Fine c' := by
  obtain ⟨d, rfl, hd⟩ := h
  obtain ⟨_, he, rfl⟩ := hs
  obtain rfl := Option.some.inj he
  exact handle_spec hd (hok d rfl)

theorem fine_reached {c : Option HTTPClient} (h : Reached Start Step Ok c) : Fine c := by
  refine h.invariant ?_ fun _ _ _ => fine_step
  rintro _ ⟨timeout, rfl⟩
  exact ⟨_, rfl, ⟨rfl, by simp⟩, fun _ => rfl, fun hn => absurd rfl hn⟩

/-- In every run without a clash the queue is never accessed when it is empty, and every request
is acknowledged once, in the order of the queue, and not for the response to another one. -/
theorem acknowledged_once {c : Option HTTPClient} (h : Reached Start Step Ok c) :
    ∃ d, c = some d ∧ Accounted d ∧ Progresses d := by
  obtain ⟨d, rfl, hd⟩ := fine_reached h
  exact ⟨d, rfl, hd.account, progresses d⟩

/-- What a sequence of events makes of a client. -/
def run (inputs : List Input) (c : HTTPClient) : Option HTTPClient :=
  inputs.foldlM (fun c i => c.handle i) c

theorem reached_run {ok : Option HTTPClient → Input → Prop} {inputs : List Input}
    (hok : ∀ i ∈ inputs, ∀ c, ok c i) {c : HTTPClient} (h : Reached Start Step ok (some c)) :
    Reached Start Step ok (run inputs c) := by
  induction inputs generalizing c with
  | nil => exact h
  | cons i inputs ih =>
    have hstep : Reached Start Step ok (c.handle i) :=
      .step h (hok i List.mem_cons_self _) ⟨c, rfl, rfl⟩
    rw [run, List.foldlM_cons]
    cases hc : c.handle i with
    | none =>
      rw [hc] at hstep
      exact hstep
    | some d => exact ih (fun i hi => hok i (List.mem_cons_of_mem _ hi)) (hc ▸ hstep)

def feed (id : ℕ) (url : Str) : HTTPRequestEvent := { id, url }

def challenge : Str := bytes "HTTP/1.0 401 No\r\nWWW-Authenticate: Basic realm=x\r\n"

theorem clashes_readable {c : HTTPClient} {i : Input} {rs : List RecvResult} (h : i.event = .readable rs) :
    Clashes c i ↔ c.sock = .connected ∧ (HTTPClient.recvLoop rs { c.tick i with length := 0 }).any
      (fun r => decide (r.2 = .httpException ∧ r.1.lengthReached)) = true := by
  rw [Option.any_eq_true]
  constructor
  · rintro ⟨rs', c', hev, hs, hc, hreach⟩
    obtain rfl := Event.readable.inj (h.symm.trans hev)
    exact ⟨hs, (c', .httpException), hc, by simpa using hreach⟩
  · rintro ⟨hs, ⟨c', ended⟩, hc, hd⟩
    obtain ⟨rfl, hreach⟩ : ended = .httpException ∧ c'.lengthReached := by simpa using hd
    exact ⟨rs, c', h, hs, hc, hreach⟩

instance (c : HTTPClient) (i : Input) : Decidable (Clashes c i) :=
  match h : i.event with
  | .readable _ => decidable_of_iff _ (clashes_readable h).symm
  | .send _ | .poll | .writable _ _ => isFalse (by rintro ⟨_, _, he, _⟩; rw [h] at he; cases he)

def clear (c : HTTPClient) : List Input → Bool
  | [] => true
  | i :: inputs => !decide (Clashes c i) && (c.handle i).all (clear · inputs)

theorem reached_clear {inputs : List Input} {c : HTTPClient} (hok : clear c inputs = true)
    (h : Reached Start Step Ok (some c)) : Reached Start Step Ok (run inputs c) := by
  induction inputs generalizing c with
  | nil => exact h
  | cons i inputs ih =>
    rw [clear, Bool.and_eq_true] at hok
    have hclear : ¬Clashes c i := by simpa using hok.1
    have hstep : Reached Start Step Ok (c.handle i) := by
      refine .step h ?_ ⟨c, rfl, rfl⟩
      intro d hd
      obtain rfl := Option.some.inj hd
      exact hclear
    rw [run, List.foldlM_cons]
    cases hc : c.handle i with
    | none =>
      rw [hc] at hstep
      exact hstep
    | some d =>
      rw [hc, Option.all_some] at hok
      exact ih hok.2 (hc ▸ hstep)

/-- Two requests: the first one is challenged, is sent again and is not found; the response to the
second one arrives in two parts. -/
def served : List Input :=
  [{ event := .send (feed 0 (bytes "example.org")), net := [.inProgress] },
   { event := .send (feed 1 (bytes "example.net")) },
   { event := .writable true true },
   { event := .readable [.data challenge], net := [.inProgress] },
   { event := .writable true true },
   { event := .readable [.data (bytes "HTTP/1.0 404 Not found\r\nContent-length: 5\r\n")] },
   { event := .poll, net := [.inProgress] },
   { event := .writable true true },
   { event := .readable [.data (bytes "HTTP/1.0 200 OK\r\nContent"), .again] },
   { event := .readable [.data (bytes "-length: 2\r\nServer: x\r\n\r\nhi")] }]

theorem acknowledged_once_served : ∃ d, run served {} = some d ∧ Accounted d ∧ Progresses d := by
  refine acknowledged_once (reached_clear ?_ (.init ⟨50, rfl⟩))
  decide +kernel

/-- Both are acknowledged, the second one with its content. -/
example : (run served {}).map (fun d => (d.queue, d.acks.map fun a => (a.ev.id, a.sent, a.ev.content))) =
    some ([], [(0, [0], []), (1, [1], bytes "hi")]) := by
  decide +kernel

def secondChallenge : Str :=
  bytes "HTTP/1.0 401 No\r\nContent-length: 5\r\nWWW-Authenticate: Basic realm=x\r\n"

/-- The client sends a request, is challenged, sends it again, and is challenged again, with a
length. -/
def challenged (queued : List HTTPRequestEvent) : List Input :=
  (queued.map fun ev => { event := .send ev, net := [.inProgress] }) ++
  [{ event := .writable true true },
   { event := .readable [.data challenge], net := [.inProgress] },
   { event := .writable true true },
   { event := .readable [.data secondChallenge] }]

/-- The exception acknowledges and removes the request, and then the length is found to be
reached: the front of the queue is taken again, when it is empty, or when it is a request that
was not sent. -/
theorem second_challenge : Reached Start Step (fun _ _ => True) none ∧
    ∃ d, Reached Start Step (fun _ _ => True) (some d) ∧ ¬Accounted d := by
  have hreach (queued : List HTTPRequestEvent) :
      Reached Start Step (fun _ _ => True) (run (challenged queued) {}) :=
    reached_run (fun _ _ _ => trivial) (.init ⟨50, rfl⟩)
  constructor
  · have hnone : run (challenged [feed 0 (bytes "example.org")]) {} = none := by decide
    exact hnone ▸ hreach _
  · have hsome : (run (challenged [feed 0 (bytes "example.org"), feed 1 (bytes "example.net")]) {}).any
        (fun d => !decide (Accounted d)) = true := by decide
    obtain ⟨d, hd, hn⟩ := (Option.any_eq_true _ _).mp hsome
    exact ⟨d, hd ▸ hreach _, by simpa using hn⟩

end CenterIM.HttpQueue
