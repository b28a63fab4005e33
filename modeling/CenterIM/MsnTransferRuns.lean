import CenterIM.MsnTransferPhases

/-!
# Runs of a file transfer

In every order of events the receiver's file is the beginning of the sender's, and all of it when
success is reported. From every state that a run can reach the transfer can go on to its end, as
long as no connection is lost and both files can be opened: no line and no block is left unread
in a buffer, so that one of the two ends always has something to do.
-/
namespace CenterIM.MsnTransfer
open ByteText Runs

structure Fair (m : Agreement) (n : Net) : Prop where
  phase : Phase m n.view
  flushed : n.receiver.connected = true → n.receiver.writeBuffer = []
  ended : n.sender.succeeded = true →
    n.sender.gone = true ∧ n.sender.fd ≠ none ∧ n.sender.bytes_done = m.fileSize

theorem Sender.answer_succeeded {m : Agreement} {s : Sender} {args : List Str} :
    (s.answer m args).1.succeeded = s.succeeded := by
  rw [Sender.answer]
  split_ifs <;> rfl

/-- The sender reports success only when all of the file is sent, and is gone then. -/
theorem Sender.handleSend_succeeded {m : Agreement} {s : Sender} (h : s.succeeded = false)
    (hs : (s.handleSend m).1.succeeded = true) :
    (s.handleSend m).1.gone = true ∧ (s.handleSend m).1.fd ≠ none ∧
      (s.handleSend m).1.bytes_done = m.fileSize := by
  by_cases hc : s.connected = true
  · rcases hfd : s.fd with _ | left
    · have hn : s.handleSend m = s.handleSend_Negotiating m := by
        rw [Sender.handleSend, if_pos hc, hfd]
      rw [hn, Sender.handleSend_Negotiating] at hs
      rcases hg : getLine s.readBuffer with _ | ⟨args, rest⟩
      · rw [hg] at hs
        exact absurd hs (by simp [h])
      · rw [hg] at hs
        have ha : (({ s with readBuffer := rest } : Sender).answer m args).1.succeeded = true := hs
        rw [Sender.answer_succeeded] at ha
        exact absurd ha (by simp [h])
    · by_cases hd : m.fileSize = s.bytes_done
      · rw [Sender.handleSend_end hc hfd hd.symm]
        exact ⟨rfl, by simp [hfd], hd.symm⟩
      · have hn : s.handleSend m = s.handleSend_Transferring m left := by
          rw [Sender.handleSend, if_pos hc, hfd]
          exact if_pos hd
        rw [hn] at hs
        exact absurd (show s.succeeded = true from hs) (by simp [h])
  · rw [Sender.handleSend_waiting (Bool.eq_false_iff.mpr hc)] at hs
    exact absurd (show s.succeeded = true from hs) (by simp [h])

theorem start_fair (m : Agreement) (c : Bool) : Fair m (Net.start c) := by
  cases c with
  | false => exact ⟨.greeting, fun h => (by cases h), fun h => (by cases h)⟩
  | true => exact ⟨.greeting, fun _ => rfl, fun h => (by cases h)⟩

theorem senderActs_fair {m : Agreement} (hm : m.Plain) {n : Net} (h : Fair m n)
    (hgone : n.sender.gone = false) : Fair m (n.senderActs m) := by
  have hs : n.sender.succeeded = false := by
    apply Bool.eq_false_iff.mpr
    intro hs
    rw [(h.ended hs).1] at hgone
    cases hgone
  exact ⟨senderActs_phase hm h.phase, h.flushed, fun he => Sender.handleSend_succeeded hs he⟩

theorem view_atSender (n : Net) (k : ℕ) : (n.atSender k).view = n.view := by
  simp only [Net.atSender, Net.view, View.mk.injEq, and_true]
  rw [List.append_assoc, ← List.append_assoc (n.back.take k), List.take_append_drop]

theorem view_atReceiver (n : Net) (k : ℕ) : (n.atReceiver k).view = n.view := by
  simp only [Net.atReceiver, Net.view, View.mk.injEq, and_true, true_and]
  rw [List.append_assoc, List.take_append_drop]

theorem view_connects (n : Net) : n.connects.view = n.view := by
  simp [Net.connects, Net.view, Receiver.socketConnectionCompleted]

/-- The steps in which nothing that is written breaks, one by one. -/
inductive Whole (m : Agreement) (n : Net) : Event → Net → Prop
  | writable : n.sender.gone = false → Whole m n .senderWritable (n.senderActs m)
  | accept (k : ℕ) : n.sender.gone = false → n.sender.connected = false →
      Whole m n (.senderData k) (n.senderActs m)
  | senderData (k : ℕ) : n.sender.gone = false → n.sender.connected = true → 0 < k → n.back ≠ [] →
      Whole m n (.senderData k) ((n.atSender k).senderActs m)
  | busy (k : ℕ) : n.sender.gone = false → n.sender.fd ≠ none →
      Whole m n (.senderBusy k) (n.atSender k)
  | acceptFails : n.sender.gone = false →
      Whole m n .acceptFails { n with sender := { n.sender with refused := true } }
  | senderLost : Whole m n .senderLost { n with sender := { n.sender with gone := true } }
  | connected : n.receiver.gone = false → n.receiver.connected = false →
      Whole m n .receiverConnected n.connects
  | receiverData (k : ℕ) : n.receiver.gone = false → n.receiver.connected = true → 0 < k →
      n.wire ≠ [] → Whole m n (.receiverData k) ((n.atReceiver k).receiverActs m)
  | receiverLost : Whole m n .receiverLost { n with receiver := { n.receiver with gone := true } }

theorem whole_of_next {m : Agreement} {n n' : Net} {e : Event} (h : n.next m e = some n') :
    Whole m n e n' := by
  cases e <;> simp only [Net.next, Option.ite_none_left_eq_some, not_or, Bool.not_eq_true,
    Option.some.injEq, reduceCtorEq] at h
  case senderWritable =>
    obtain ⟨hg, rfl⟩ := h
    exact .writable hg
  case senderData k =>
    obtain ⟨hg, h⟩ := h
    split_ifs at h with hc hk
    · obtain rfl := Option.some.inj h
      exact .accept k hg hc
    · obtain rfl := Option.some.inj h
      exact .senderData k hg (by simpa using hc) hk.1 hk.2
  case senderBusy k =>
    obtain ⟨⟨hg, -, hfd, -⟩, rfl⟩ := h
    exact .busy k hg hfd
  case acceptFails =>
    obtain ⟨⟨hg, -⟩, rfl⟩ := h
    exact .acceptFails hg
  case senderLost => exact h ▸ .senderLost
  case receiverConnected =>
    obtain ⟨⟨hg, hc⟩, rfl⟩ := h
    exact .connected hg hc
  case receiverData k =>
    obtain ⟨⟨hg, hc⟩, h⟩ := h
    split_ifs at h with hk
    obtain rfl := Option.some.inj h
    exact .receiverData k hg (by simpa using hc) hk.1 hk.2
  case receiverLost => exact h ▸ .receiverLost

theorem atSender_fair {m : Agreement} {n : Net} (h : Fair m n) (k : ℕ) : Fair m (n.atSender k) :=
  ⟨by rw [view_atSender]; exact h.phase, h.flushed, h.ended⟩

theorem step_fair {m : Agreement} (hm : m.Plain) {n n' : Net} {e : Event} (h : Fair m n)
    (hst : Whole m n e n') : Fair m n' := by
  cases hst with
  | writable hgone => exact senderActs_fair hm h hgone
  | accept k hgone hc => exact senderActs_fair hm h hgone
  | senderData k hgone hc hk hb => exact senderActs_fair hm (atSender_fair h k) hgone
  | busy k hgone hfd => exact atSender_fair h k
  | acceptFails hgone => exact ⟨h.phase, h.flushed, h.ended⟩
  | senderLost =>
    refine ⟨h.phase, h.flushed, ?_⟩
    intro hs
    exact ⟨rfl, (h.ended hs).2⟩
  | connected hgone hc =>
    exact ⟨by rw [view_connects]; exact h.phase, fun _ => rfl, h.ended⟩
  | receiverData k hgone hc hk hb =>
    have ho : Open (n.atReceiver k).receiver := ⟨hc, h.flushed hc⟩
    obtain ⟨hp, ho'⟩ := receiverActs_phase (m := m) ho (by rw [view_atReceiver]; exact h.phase)
    exact ⟨hp, fun _ => ho'.flushed, h.ended⟩
  | receiverLost => exact ⟨h.phase, h.flushed, h.ended⟩

/-- The states that are reached when no write breaks. -/
abbrev WholeReachable (m : Agreement) : Net → Prop :=
  Reached (fun n => ∃ c, n = Net.start c) (Whole m) (fun _ _ => True)

theorem reachable_fair {m : Agreement} (hm : m.Plain) {n : Net} (h : WholeReachable m n) :
    Fair m n := by
  apply h.invariant (I := Fair m)
  · rintro n ⟨c, rfl⟩
    exact start_fair m c
  · intro n e n' hn _ hst
    exact step_fair hm hn hst

/-- What is written is the beginning of the file as it was announced, when no write breaks. -/
theorem whole_transferred {m : Agreement} (hm : m.Plain) {n : Net} (h : WholeReachable m n) :
    n.receiver.written <+: image m ∧
    (n.receiver.succeeded = true → n.receiver.written = image m) ∧
    (n.sender.succeeded = true → ∃ blocks : List Str,
      n.receiver.readBuffer ++ n.wire = blocks.flatMap Sender.blockBytes ∧
      n.receiver.written ++ blocks.flatten = image m) ∧
    (n.sender.failed = true → m.canRead = false) ∧
    (n.receiver.failed = true → m.canWrite = false) := by
  have hfair := reachable_fair hm h
  have hp := hfair.phase
  generalize hv : n.view = v at hp
  have hfd : n.sender.fd = v.sending := by rw [← hv]; rfl
  have hd : n.sender.bytes_done = v.sent := by rw [← hv]; rfl
  have hw : n.receiver.written = v.written := by rw [← hv]; rfl
  have hrs : n.receiver.succeeded = v.arrived := by rw [← hv]; rfl
  have hsf : n.sender.failed = v.refusedRead := by rw [← hv]; rfl
  have hrf : n.receiver.failed = v.refusedWrite := by rw [← hv]; rfl
  have hto : n.receiver.readBuffer ++ n.wire = v.toReceiver := by rw [← hv]; rfl
  have hnone : v.sending = none → n.sender.succeeded = false := by
    intro hnone
    apply Bool.eq_false_iff.mpr
    intro hs
    exact (hfair.ended hs).2.1 (by rw [hfd, hnone])
  rw [hw, hrs, hsf, hrf, hto]
  cases hp with
  | refusedWrite hcan => simp [hnone rfl, hcan]
  | refusedRead hcan => simp [hnone rfl, hcan]
  | @moving bs w d hmv =>
    refine ⟨?_, fun hs => (by cases hs), ?_, fun hs => (by cases hs), fun hs => (by cases hs)⟩
    · have hpre : w <+: (image m).take d := ⟨bs.flatten, hmv.file⟩
      exact hpre.trans (List.take_prefix d _)
    · intro hs
      have hall : d = m.fileSize := hd.symm.trans (hfair.ended hs).2.2
      refine ⟨bs, rfl, ?_⟩
      change w ++ bs.flatten = image m
      rw [hmv.file, hall, List.take_of_length_le (by rw [image_length])]
  | arrived =>
    refine ⟨List.prefix_refl _, fun _ => rfl, ?_, fun hs => (by cases hs), fun hs => (by cases hs)⟩
    intro hs
    exact ⟨[], rfl, by simp [View.complete]⟩
  | _ => simp [hnone rfl, View.line]

/-- A run in which writes break comes to what a run comes to in which they go out whole, but for
what is lost behind them. -/
structure Cut (n n₀ : Net) : Prop where
  sender : n.sender = n₀.sender
  receiver : { n.receiver with succeeded := n₀.receiver.succeeded } = n₀.receiver
  succeeded : n.receiver.succeeded = true → n₀.receiver.succeeded = true
  intact : n.receiver.gone = false → n.receiver = n₀.receiver
  wire : ∃ x, n₀.wire = n.wire ++ x ∧ (x = [] ∨ n.sender.gone = true ∧ n.sender.succeeded = false)
  back : ∃ y, n₀.back = n.back ++ y ∧ (y = [] ∨ n.receiver.gone = true)

section Cut

variable {m : Agreement} {n n₀ : Net}

theorem Cut.refl (n : Net) : Cut n n :=
  ⟨rfl, rfl, id, fun _ => rfl, ⟨[], (List.append_nil _).symm, .inl rfl⟩,
    ⟨[], (List.append_nil _).symm, .inl rfl⟩⟩

theorem Cut.wire_eq (h : Cut n n₀) (hg : n.sender.gone = false) : n₀.wire = n.wire := by
  obtain ⟨x, hx, rfl | ⟨hgone, -⟩⟩ := h.wire
  · rw [hx, List.append_nil]
  · rw [hg] at hgone
    cases hgone

theorem Cut.back_eq (h : Cut n n₀) (hg : n.receiver.gone = false) : n₀.back = n.back := by
  obtain ⟨y, hy, rfl | hgone⟩ := h.back
  · rw [hy, List.append_nil]
  · rw [hg] at hgone
    cases hgone

theorem take_min_append (s t : Str) (k : ℕ) : (s ++ t).take (min k s.length) = s.take k ∧
    (s ++ t).drop (min k s.length) = s.drop k ++ t := by
  rcases Nat.le_total k s.length with hk | hk
  · rw [min_eq_left hk, List.take_append_of_le_length hk, List.drop_append_of_le_length hk]
    exact ⟨rfl, rfl⟩
  · rw [min_eq_right hk, List.take_left, List.drop_left, List.take_of_length_le hk,
      List.drop_of_length_le hk]
    exact ⟨rfl, rfl⟩

theorem Cut.atSender (h : Cut n n₀) (k : ℕ) :
    Cut (n.atSender k) (n₀.atSender (min k n.back.length)) := by
  obtain ⟨y, hy, hor⟩ := h.back
  obtain ⟨htake, hdrop⟩ := take_min_append n.back y k
  refine ⟨?_, h.receiver, h.succeeded, h.intact, h.wire, ⟨y, ?_, hor⟩⟩
  · simp only [Net.atSender, h.sender, hy, htake]
  · simp only [Net.atSender, hy, hdrop]

theorem Cut.atReceiver (h : Cut n n₀) (hg : n.receiver.gone = false) (k : ℕ) :
    Cut (n.atReceiver k) (n₀.atReceiver (min k n.wire.length)) := by
  obtain ⟨x, hx, hor⟩ := h.wire
  obtain ⟨htake, hdrop⟩ := take_min_append n.wire x k
  have hreceiver : (n.atReceiver k).receiver =
      (n₀.atReceiver (min k n.wire.length)).receiver := by
    simp only [Net.atReceiver, h.intact hg, hx, htake]
  refine ⟨h.sender, ?_, ?_, fun _ => hreceiver, ⟨x, ?_, hor⟩, h.back⟩
  · rw [hreceiver]
  · rw [hreceiver]
    exact id
  · simp only [Net.atReceiver, hx, hdrop]

theorem Cut.senderActs (h : Cut n n₀) (hg : n.sender.gone = false) :
    Cut (n.senderActs m) (n₀.senderActs m) := by
  refine ⟨?_, h.receiver, h.succeeded, h.intact, ⟨[], ?_, .inl rfl⟩, h.back⟩
  · simp only [Net.senderActs, h.sender]
  · simp only [Net.senderActs, h.wire_eq hg, h.sender, List.append_nil]

theorem Cut.receiverActs (h : Cut n n₀) (hg : n.receiver.gone = false) :
    Cut (n.receiverActs m) (n₀.receiverActs m) := by
  have hreceiver := h.intact hg
  refine ⟨h.sender, ?_, ?_, fun _ => ?_, h.wire, ⟨[], ?_, .inl rfl⟩⟩
  · simp only [Net.receiverActs, hreceiver]
  · simp only [Net.receiverActs, hreceiver]
    exact id
  · simp only [Net.receiverActs, hreceiver]
  · simp only [Net.receiverActs, h.back_eq hg, hreceiver, List.append_nil]

/-- A handler of the sender that writes something does not report a success. -/
theorem Sender.handleSend_writes {s : Sender} (h : (s.handleSend m).2 ≠ []) :
    (s.handleSend m).1.succeeded = s.succeeded := by
  by_cases hc : s.connected = true
  · rcases hfd : s.fd with _ | left
    · have hn : s.handleSend m = s.handleSend_Negotiating m := by
        rw [Sender.handleSend, if_pos hc, hfd]
      rw [hn, Sender.handleSend_Negotiating]
      rcases getLine s.readBuffer with _ | ⟨args, rest⟩
      · rfl
      · exact @Sender.answer_succeeded m { s with readBuffer := rest } args
    · by_cases hd : m.fileSize = s.bytes_done
      · rw [Sender.handleSend_end hc hfd hd.symm] at h
        exact absurd rfl h
      · have hn : s.handleSend m = s.handleSend_Transferring m left := by
          rw [Sender.handleSend, if_pos hc, hfd]
          exact if_pos hd
        rw [hn]
        rfl
  · rw [Sender.handleSend_waiting (Bool.eq_false_iff.mpr hc)]

theorem Receiver.write_succeeded {r : Receiver} {s : Str} :
    (r.write s).1.succeeded = r.succeeded := by
  rw [Receiver.write]
  split_ifs <;> rfl

theorem Receiver.transferring_succeeded (fuel : ℕ) {r : Receiver} (h : r.succeeded = true) :
    (Receiver.transferring m fuel r).1.succeeded = true := by
  induction fuel generalizing r with
  | zero => exact h
  | succ fuel ih =>
    rw [Receiver.transferring]
    split
    · dsimp only
      split_ifs
      · exact h
      · exact Receiver.write_succeeded
      · exact h
      · exact h
      · exact h
      · exact Receiver.write_succeeded
      · exact ih h
    · exact h

theorem Receiver.handleReceive_succeeded {r : Receiver} (h : r.succeeded = true) :
    (r.handleReceive m).1.succeeded = true := by
  rw [Receiver.handleReceive]
  split_ifs
  · exact Receiver.transferring_succeeded _ h
  · rw [Receiver.handleReceive_Negotiating]
    rcases getLine r.readBuffer with _ | ⟨args, rest⟩
    · exact h
    · change (({ r with readBuffer := rest } : Receiver).answer m args).1.succeeded = true
      rw [Receiver.answer]
      split_ifs
      · exact Receiver.write_succeeded.trans h
      · exact Receiver.write_succeeded.trans h
      · exact h
      · exact h

/-- When the sender loses its connection in the middle of a write, the rest is lost. -/
theorem Cut.senderBroken (h : Cut n n₀) (hg : n.sender.gone = false)
    (hs : n.sender.succeeded = false) {out : ℕ} (hout : out < (n.sender.handleSend m).2.length) :
    Cut (n.senderBroken m out) { n₀.senderActs m with
      sender := { (n₀.senderActs m).sender with gone := true } } := by
  have hne : (n.sender.handleSend m).2 ≠ [] := by
    intro hnil
    rw [hnil] at hout
    cases hout
  refine ⟨?_, h.receiver, h.succeeded, h.intact, ⟨(n.sender.handleSend m).2.drop out, ?_, .inr
    ⟨rfl, (Sender.handleSend_writes hne).trans hs⟩⟩, h.back⟩
  · simp only [Net.senderBroken, Net.senderActs, h.sender]
  · simp only [Net.senderBroken, Net.senderActs, h.wire_eq hg, ← h.sender, List.append_assoc,
      List.take_append_drop]

theorem Cut.receiverBroken (h : Cut n n₀) (hg : n.receiver.gone = false) (out : ℕ) :
    Cut (n.receiverBroken m out) { n₀.receiverActs m with
      receiver := { (n₀.receiverActs m).receiver with gone := true } } := by
  have hreceiver := h.intact hg
  refine ⟨h.sender, ?_, fun hs => ?_, fun hgone => ?_, h.wire,
    ⟨(n.receiver.handleReceive m).2.drop out, ?_, .inr rfl⟩⟩
  · simp only [Net.receiverBroken, Net.receiverActs, hreceiver]
  · simp only [Net.receiverBroken, Net.receiverActs, ← hreceiver] at hs ⊢
    exact Receiver.handleReceive_succeeded hs
  · cases hgone
  · simp only [Net.receiverBroken, Net.receiverActs, h.back_eq hg, ← hreceiver, List.append_assoc,
      List.take_append_drop]

theorem Cut.connects (h : Cut n n₀) (hg : n.receiver.gone = false) :
    Cut n.connects n₀.connects := by
  have hreceiver := h.intact hg
  refine ⟨h.sender, ?_, ?_, fun _ => ?_, h.wire, ⟨[], ?_, .inl rfl⟩⟩
  · simp only [Net.connects, hreceiver]
  · simp only [Net.connects, hreceiver]
    exact id
  · simp only [Net.connects, hreceiver]
  · simp only [Net.connects, h.back_eq hg, hreceiver, List.append_nil]

theorem Cut.senderLost (h : Cut n n₀) :
    Cut { n with sender := { n.sender with gone := true } }
      { n₀ with sender := { n₀.sender with gone := true } } := by
  obtain ⟨x, hx, hor⟩ := h.wire
  refine ⟨?_, h.receiver, h.succeeded, h.intact, ⟨x, hx, ?_⟩, h.back⟩
  · simp only [h.sender]
  · exact hor.imp_right fun hgone => ⟨rfl, hgone.2⟩

theorem Cut.receiverLost (h : Cut n n₀) :
    Cut { n with receiver := { n.receiver with gone := true } }
      { n₀ with receiver := { n₀.receiver with gone := true } } := by
  obtain ⟨y, hy, -⟩ := h.back
  refine ⟨h.sender, ?_, h.succeeded, fun hgone => (by cases hgone), h.wire, ⟨y, hy, .inr rfl⟩⟩
  rw [← h.receiver]

/-- The first line, or the one that is kept until the connection is there, breaks. -/
theorem Cut.connectedBroken (h : Cut n n₀) (hg : n.receiver.gone = false) (out : ℕ) :
    Cut { n with
        receiver := { n.receiver.socketConnectionCompleted.1 with gone := true }
        back := n.back ++ n.receiver.socketConnectionCompleted.2.take out }
      { n₀.connects with receiver := { n₀.connects.receiver with gone := true } } := by
  have hreceiver := h.intact hg
  refine ⟨h.sender, ?_, ?_, fun hgone => (by cases hgone), h.wire,
    ⟨n.receiver.socketConnectionCompleted.2.drop out, ?_, .inr rfl⟩⟩
  · simp only [Net.connects, hreceiver]
  · simp only [Net.connects, hreceiver]
    exact id
  · simp only [Net.connects, h.back_eq hg, ← hreceiver, List.append_assoc, List.take_append_drop]

/-- What the sender does with what arrives at it is a whole step also when nothing arrives. -/
theorem WholeReachable.sends (h : WholeReachable m n) (hg : n.sender.gone = false)
    (hc : n.sender.connected = true) (k : ℕ) : WholeReachable m ((n.atSender k).senderActs m) := by
  by_cases hk : 0 < k ∧ n.back ≠ []
  · exact h.step trivial (.senderData k hg hc hk.1 hk.2)
  · have hsame : n.atSender k = n := by
      rcases Nat.eq_zero_or_pos k with rfl | hpos
      · simp [Net.atSender]
      · have hback : n.back = [] := by
          by_contra hne
          exact hk ⟨hpos, hne⟩
        rw [Net.atSender, hback, List.take_nil, List.drop_nil, List.append_nil, ← hback]
    rw [hsame]
    exact h.step trivial (.writable hg)

theorem whole_cut (h : Cut n n₀) (hr : WholeReachable m n₀) {e : Event} {n' : Net}
    (hst : Whole m n e n') : ∃ n₀', WholeReachable m n₀' ∧ Cut n' n₀' := by
  have hsgone := congrArg Sender.gone h.sender
  have hsconn := congrArg Sender.connected h.sender
  cases hst with
  | writable hg => exact ⟨_, hr.step trivial (.writable (hsgone ▸ hg)), h.senderActs hg⟩
  | accept k hg hc => exact ⟨_, hr.step trivial (.writable (hsgone ▸ hg)), h.senderActs hg⟩
  | senderData k hg hc hk hb =>
    exact ⟨_, hr.sends (hsgone ▸ hg) (hsconn ▸ hc) _, (h.atSender k).senderActs hg⟩
  | busy k hg hfd =>
    exact ⟨_, hr.step trivial (.busy _ (hsgone ▸ hg) (h.sender ▸ hfd)), h.atSender k⟩
  | acceptFails hg =>
    refine ⟨_, hr.step trivial (.acceptFails (hsgone ▸ hg)), ?_⟩
    exact ⟨by simp only [h.sender], h.receiver, h.succeeded, h.intact, h.wire, h.back⟩
  | senderLost => exact ⟨_, hr.step trivial .senderLost, h.senderLost⟩
  | connected hg hc =>
    have hreceiver := h.intact hg
    exact ⟨_, hr.step trivial (.connected (hreceiver ▸ hg) (hreceiver ▸ hc)), h.connects hg⟩
  | receiverData k hg hc hk hb =>
    have hreceiver := h.intact hg
    have hk' : 0 < min k n.wire.length := lt_min hk (List.length_pos_iff.mpr hb)
    have hb' : n₀.wire ≠ [] := by
      obtain ⟨x, hx, -⟩ := h.wire
      rw [hx]
      exact List.append_ne_nil_of_left_ne_nil hb x
    exact ⟨_, hr.step trivial (.receiverData _ (hreceiver ▸ hg) (hreceiver ▸ hc) hk' hb'),
      (h.atReceiver hg k).receiverActs hg⟩
  | receiverLost => exact ⟨_, hr.step trivial .receiverLost, h.receiverLost⟩

theorem step_cut (hm : m.Plain) (h : Cut n n₀) (hr : WholeReachable m n₀) {e : Event} {n' : Net}
    (hst : Step m n e n') : ∃ n₀', WholeReachable m n₀' ∧ Cut n' n₀' := by
  have hsgone := congrArg Sender.gone h.sender
  have hsconn := congrArg Sender.connected h.sender
  cases hst with
  | whole hnext => exact whole_cut h hr (whole_of_next hnext)
  | senderBreaks k out hg hc hout =>
    have hs : n.sender.succeeded = false := by
      apply Bool.eq_false_iff.mpr
      intro hs
      have hgone := ((reachable_fair hm hr).ended (h.sender ▸ hs)).1
      rw [← hsgone, hg] at hgone
      cases hgone
    exact ⟨_, (hr.sends (hsgone ▸ hg) (hsconn ▸ hc) _).step trivial .senderLost,
      (h.atSender k).senderBroken hg hs hout⟩
  | connectedBreaks out hg hc hout =>
    have hreceiver := h.intact hg
    exact ⟨_, (hr.step trivial (.connected (hreceiver ▸ hg) (hreceiver ▸ hc))).step trivial
      .receiverLost, h.connectedBroken hg out⟩
  | receiverBreaks k out hg hc hk hb hout =>
    have hreceiver := h.intact hg
    have hk' : 0 < min k n.wire.length := lt_min hk (List.length_pos_iff.mpr hb)
    have hb' : n₀.wire ≠ [] := by
      obtain ⟨x, hx, -⟩ := h.wire
      rw [hx]
      exact List.append_ne_nil_of_left_ne_nil hb x
    exact ⟨_, (hr.step trivial (.receiverData _ (hreceiver ▸ hg) (hreceiver ▸ hc) hk' hb')).step
      trivial .receiverLost, (h.atReceiver hg k).receiverBroken hg out⟩

end Cut

abbrev Reachable (m : Agreement) : Net → Prop :=
  Reached Begun (Step m) (fun _ _ => True)

/-- Every run comes, but for what is lost, to what a run without a broken write comes to. -/
theorem reachable_cut {m : Agreement} (hm : m.Plain) {n : Net} (h : Reachable m n) :
    ∃ n₀, WholeReachable m n₀ ∧ Cut n n₀ := by
  apply h.invariant (I := fun n => ∃ n₀, WholeReachable m n₀ ∧ Cut n n₀)
  · intro n hn
    cases hn with
    | start c => exact ⟨_, .init ⟨c, rfl⟩, .refl _⟩
    | startBreaks out _ =>
      have hr : WholeReachable m (Net.start true) := .init ⟨true, rfl⟩
      refine ⟨_, hr.step trivial .receiverLost, rfl, rfl, id, fun hgone => (by cases hgone),
        ⟨[], rfl, .inl rfl⟩, ⟨verLine.drop out, ?_, .inr rfl⟩⟩
      exact (List.take_append_drop out verLine).symm
  · intro n e n' hn _ hst
    obtain ⟨n₀, hr, hcut⟩ := hn
    exact step_cut hm hcut hr hst

theorem image_eq {m : Agreement} (hsize : m.content.length = m.fileSize) : image m = m.content := by
  rw [image, List.take_append_of_le_length hsize.ge, List.take_of_length_le hsize.le]

/-- What is written is the beginning of the file, and with what is still on its way the whole of
it when the sender has reported success. -/
theorem transferred {m : Agreement} (hm : m.Plain) (hsize : m.content.length = m.fileSize)
    {n : Net} (h : Reachable m n) :
    n.receiver.written <+: m.content ∧
    (n.receiver.succeeded = true → n.receiver.written = m.content) ∧
    (n.sender.succeeded = true → ∃ blocks : List Str,
      n.receiver.readBuffer ++ n.wire = blocks.flatMap Sender.blockBytes ∧
      n.receiver.written ++ blocks.flatten = m.content) ∧
    (n.sender.failed = true → m.canRead = false) ∧
    (n.receiver.failed = true → m.canWrite = false) := by
  obtain ⟨n₀, hr, hcut⟩ := reachable_cut hm h
  obtain ⟨hpre, hsucc, hsent, hsf, hrf⟩ := whole_transferred hm hr
  rw [image_eq hsize] at hpre hsucc hsent
  have hw : n.receiver.written = n₀.receiver.written := by
    rw [← hcut.receiver]
  have hb : n.receiver.readBuffer = n₀.receiver.readBuffer := by
    rw [← hcut.receiver]
  have hf : n.receiver.failed = n₀.receiver.failed := by
    rw [← hcut.receiver]
  rw [hw, hb, hf, hcut.sender]
  refine ⟨hpre, fun hs => hsucc (hcut.succeeded hs), fun hs => ?_, hsf, hrf⟩
  obtain ⟨x, hx, rfl | ⟨-, hnot⟩⟩ := hcut.wire
  · rw [List.append_nil] at hx
    rw [← hx]
    exact hsent hs
  · rw [hcut.sender, hs] at hnot
    cases hnot

theorem Reachable.after {m : Agreement} {n n' : Net} (h : Reachable m n) (es : List Event)
    (ha : n.after m es = some n') : Reachable m n' := by
  induction es generalizing n with
  | nil =>
    obtain rfl := Option.some.inj ha
    exact h
  | cons e es ih =>
    rw [Net.after, List.foldlM_cons] at ha
    obtain ⟨n₁, hn, ha⟩ := Option.bind_eq_some_iff.mp ha
    exact ih (h.step trivial (.whole hn)) ha

def letter : Agreement where
  fileSize := 5
  username := bytes "me"
  cookie := bytes "7"
  content := bytes "hello"
  canRead := true
  canWrite := true

theorem letter_plain : letter.Plain := by
  refine ⟨?_, ?_, ?_⟩ <;> decide

/-- The sender is done, and of the one block two bytes have arrived. -/
def letterEvents : List Event :=
  [.receiverConnected, .senderWritable, .senderData 5, .senderData 100, .receiverData 7,
    .receiverData 100, .senderData 100, .receiverData 100, .senderData 2, .senderData 3,
    .senderBusy 1, .senderWritable, .receiverData 2, .senderWritable]

theorem transferred_letter : ∃ n n' : Net, (Net.start false).after letter letterEvents = some n ∧
    n.sender.succeeded = true ∧ n.receiver.readBuffer = [0, 5] ∧
    (∃ blocks : List Str, n.receiver.readBuffer ++ n.wire = blocks.flatMap Sender.blockBytes ∧
      n.receiver.written ++ blocks.flatten = letter.content) ∧
    n.next letter (.receiverData 100) = some n' ∧ n'.receiver.succeeded = true ∧
    n'.receiver.written = letter.content ∧ n'.receiver.failed = false := by
  have hrun : (((Net.start false).after letter letterEvents).map fun n =>
      (n.sender.succeeded, n.receiver.readBuffer,
        (n.next letter (.receiverData 100)).map fun n' => n'.receiver.succeeded)) =
      some (true, [0, 5], some true) := by
    decide +kernel
  obtain ⟨n, hn, hv⟩ := Option.map_eq_some_iff.mp hrun
  simp only [Prod.mk.injEq] at hv
  obtain ⟨hs, hb, hv⟩ := hv
  obtain ⟨n', hn', hs'⟩ := Option.map_eq_some_iff.mp hv
  have hr : Reachable letter n := Reachable.after (.init (.start false)) letterEvents hn
  obtain ⟨-, -, hway, -, -⟩ := transferred letter_plain rfl hr
  obtain ⟨-, hall, -, -, hfail⟩ := transferred letter_plain rfl (hr.step trivial (.whole hn'))
  refine ⟨n, n', hn, hs, hb, hway hs, hn', hs', hall hs', Bool.eq_false_iff.mpr ?_⟩
  intro hf
  cases hfail hf

/-- A line or a block that is not read yet is not all in the buffer. -/
structure Handled (n : Net) : Prop where
  lines : n.sender.fd = none → n.view.toSender ≠ [] → n.back ++ n.receiver.writeBuffer ≠ []
  blocks : n.view.toReceiver ≠ [] → n.wire ≠ []

/-- After the sender's handler a line is read, or it is still on its way. -/
theorem senderActs_read {m : Agreement} {n : Net} {l : Str} (hc : n.sender.connected = true)
    (hfd : n.sender.fd = none) (hl : cr ∉ l) (hto : n.view.toSender = l ++ crlf)
    (hne : (n.senderActs m).view.toSender ≠ []) : n.back ++ n.receiver.writeBuffer ≠ [] := by
  rcases senderActs_line (m := m) hc hfd hl hto with ⟨hq, -⟩ | hs
  · exact hq
  · rw [hs _ _ rfl] at hne
    exact absurd Sender.answer_readBuffer hne

theorem Sender.handleSend_fd {m : Agreement} {s : Sender} {left : Str} (hc : s.connected = true)
    (hfd : s.fd = some left) : (s.handleSend m).1.fd ≠ none := by
  rw [Sender.handleSend, if_pos hc, hfd]
  by_cases hd : m.fileSize = s.bytes_done
  · simp [hd, Sender.handleSend_Bye, hfd]
  · simp [hd, Sender.handleSend_Transferring]

theorem senderActs_lines {m : Agreement} (hm : m.Plain) {n : Net} (h : Phase m n.view)
    (hc : n.sender.connected = true) (hfd : (n.senderActs m).sender.fd = none)
    (hne : (n.senderActs m).view.toSender ≠ []) : n.back ++ n.receiver.writeBuffer ≠ [] := by
  generalize hv : n.view = v at h
  have hs : n.sender.fd = v.sending := by rw [← hv]; rfl
  have hto : n.view.toSender = v.toSender := by rw [hv]
  cases h with
  | greeting => exact senderActs_read hc hs (by decide) hto hne
  | named => exact senderActs_read hc hs (cr_not_mem_usr hm) hto hne
  | asked => exact senderActs_read hc hs (by decide) hto hne
  | greeted => exact absurd (senderActs_quiet (m := m) hc hs hto ▸ hto) hne
  | offered => exact absurd (senderActs_quiet (m := m) hc hs hto ▸ hto) hne
  | refusedWrite _ => exact absurd (senderActs_quiet (m := m) hc hs hto ▸ hto) hne
  | refusedRead _ => exact absurd (senderActs_quiet (m := m) hc hs hto ▸ hto) hne
  | moving _ => exact absurd hfd (Sender.handleSend_fd hc hs)
  | arrived => exact absurd hfd (Sender.handleSend_fd hc hs)

theorem receiverActs_read {m : Agreement} {n : Net} {l : Str} (ho : Open n.receiver)
    (hfd : n.receiver.fd = false) (hl : cr ∉ l) (hto : n.view.toReceiver = l ++ crlf)
    (hne : (n.receiverActs m).view.toReceiver ≠ []) : n.wire ≠ [] := by
  rcases receiverActs_line (m := m) ho hfd hl hto with ⟨hq, -⟩ | hs
  · exact hq
  · obtain ⟨-, hview⟩ := hs _ _ rfl (Receiver.answer_open ⟨ho.1, ho.2⟩)
    rw [hview] at hne
    exact absurd Receiver.answer_readBuffer hne

theorem receiverActs_blocks {m : Agreement} {n : Net} (ho : Open n.receiver)
    (h : Phase m n.view) (hne : (n.receiverActs m).view.toReceiver ≠ []) : n.wire ≠ [] := by
  generalize hv : n.view = v at h
  have hfd : n.receiver.fd = v.receiving := by rw [← hv]; rfl
  have hto : n.view.toReceiver = v.toReceiver := by rw [hv]
  cases h with
  | greeted => exact receiverActs_read ho hfd (by decide) hto hne
  | offered => exact receiverActs_read ho hfd (cr_not_mem_fil _) hto hne
  | moving hmv =>
    rcases (receiverActs_moving ho hmv hv).1 with ⟨bs', w', -, hs, hwire⟩ | hs
    · apply hwire
      intro hbs
      rw [hs, hbs] at hne
      exact hne rfl
    · rw [hs] at hne
      exact absurd rfl hne
  | _ => exact absurd ((receiverActs_quiet (m := m) ho hto).1 ▸ hto) hne

theorem senderActs_handled {m : Agreement} (hm : m.Plain) {n : Net} (h : Phase m n.view)
    (hl : n.sender.connected = false → n.sender.fd = none → n.view.toSender ≠ [] →
      n.back ++ n.receiver.writeBuffer ≠ [])
    (hb : n.view.toReceiver ≠ [] → n.wire ≠ []) : Handled (n.senderActs m) := by
  refine ⟨?_, ?_⟩
  · intro hfd hne
    by_cases hc : n.sender.connected = true
    · exact senderActs_lines (n := n) hm h hc hfd hne
    · have hc' := Bool.eq_false_iff.mpr hc
      have hs := Sender.handleSend_waiting (m := m) hc'
      rw [senderActs_of hs] at hfd hne
      exact hl hc' hfd hne
  · intro hne hwire
    have hw : n.wire ++ (n.sender.handleSend m).2 = [] := hwire
    obtain ⟨hw1, hw2⟩ := List.append_eq_nil_iff.mp hw
    have ht : n.receiver.readBuffer ++ (n.wire ++ (n.sender.handleSend m).2) ≠ [] := hne
    rw [hw2, List.append_nil] at ht
    exact hb ht hw1

theorem receiverActs_handled {m : Agreement} {n : Net} (ho : Open n.receiver)
    (h : Phase m n.view) (hl : n.sender.fd = none → n.view.toSender ≠ [] → n.back ≠ []) :
    Handled (n.receiverActs m) := by
  have ho' := (receiverActs_phase ho h).2
  refine ⟨?_, ?_⟩
  · intro hfd hne hback
    have hb : n.back ++ (n.receiver.handleReceive m).2 ++ (n.receiver.handleReceive m).1.writeBuffer = [] :=
      hback
    have hw : (n.receiver.handleReceive m).1.writeBuffer = [] := ho'.flushed
    rw [hw, List.append_nil] at hb
    obtain ⟨hb1, hb2⟩ := List.append_eq_nil_iff.mp hb
    have ht : n.sender.readBuffer ++ (n.back ++ (n.receiver.handleReceive m).2 ++
        (n.receiver.handleReceive m).1.writeBuffer) ≠ [] := hne
    rw [hw, hb2] at ht
    simp only [List.append_nil] at ht
    refine hl hfd ?_ hb1
    show n.sender.readBuffer ++ (n.back ++ n.receiver.writeBuffer) ≠ []
    rwa [ho.flushed, List.append_nil]
  · exact receiverActs_blocks ho h

theorem step_handled {m : Agreement} (hm : m.Plain) {n n' : Net} {e : Event} (hf : Fair m n)
    (h : Handled n) (hst : Whole m n e n') : Handled n' := by
  cases hst with
  | writable hgone => exact senderActs_handled hm hf.phase (fun _ => h.lines) h.blocks
  | accept k hgone hc => exact senderActs_handled hm hf.phase (fun _ => h.lines) h.blocks
  | senderData k hgone hc hk hb =>
    refine senderActs_handled hm ?_ ?_ ?_
    · rw [view_atSender]
      exact hf.phase
    · intro hc'
      exact absurd (hc.symm.trans hc') (by decide)
    · rw [view_atSender]
      exact h.blocks
  | busy k hgone hfd =>
    refine ⟨fun hnone => absurd hnone hfd, ?_⟩
    rw [view_atSender]
    exact h.blocks
  | acceptFails hgone => exact ⟨h.lines, h.blocks⟩
  | senderLost => exact ⟨h.lines, h.blocks⟩
  | connected hgone hc =>
    refine ⟨?_, ?_⟩
    · rw [view_connects]
      intro hfd hne
      have := h.lines hfd hne
      simpa [Net.connects, Receiver.socketConnectionCompleted] using this
    · rw [view_connects]
      exact h.blocks
  | receiverData k hgone hc hk hb =>
    refine receiverActs_handled ⟨hc, hf.flushed hc⟩ ?_ ?_
    · rw [view_atReceiver]
      exact hf.phase
    · rw [view_atReceiver]
      intro hfd hne
      have := h.lines hfd hne
      rwa [hf.flushed hc, List.append_nil] at this
  | receiverLost => exact ⟨h.lines, h.blocks⟩

def Event.lost : Event → Bool
  | .senderLost | .receiverLost => true
  | _ => false

/-- A run in which no connection is lost and no write breaks. -/
abbrev Leads (m : Agreement) : Net → Net → Prop :=
  Relation.ReflTransGen fun n n' => ∃ e, e.lost = false ∧ n.next m e = some n'

theorem next_writable {m : Agreement} {n : Net} (h : n.sender.gone = false) :
    n.next m .senderWritable = some (n.senderActs m) := by
  rw [Net.next, if_neg (by simp [h])]

theorem next_senderData {m : Agreement} {n : Net} (hg : n.sender.gone = false)
    (hc : n.sender.connected = true) (hb : n.back ≠ []) :
    n.next m (.senderData n.back.length) = some ((n.atSender n.back.length).senderActs m) := by
  rw [Net.next, if_neg (by simp [hg]), if_neg (by simp [hc]),
    if_pos ⟨List.length_pos_iff.mpr hb, hb⟩]

theorem next_receiverData {m : Agreement} {n : Net} (hg : n.receiver.gone = false)
    (hc : n.receiver.connected = true) (hw : n.wire ≠ []) :
    n.next m (.receiverData n.wire.length) =
      some ((n.atReceiver n.wire.length).receiverActs m) := by
  rw [Net.next, if_neg (by simp [hg, hc]), if_pos ⟨List.length_pos_iff.mpr hw, hw⟩]

theorem next_receiverConnected {m : Agreement} {n : Net} (hg : n.receiver.gone = false)
    (hc : n.receiver.connected = false) : n.next m .receiverConnected = some n.connects := by
  rw [Net.next, if_neg (by simp [hg, hc])]

structure Up (m : Agreement) (n : Net) : Prop where
  fair : Fair m n
  handled : Handled n
  connected : n.receiver.connected = true
  gone : n.receiver.gone = false

structure Ready (m : Agreement) (n : Net) : Prop extends Up m n where
  senderConnected : n.sender.connected = true
  senderGone : n.sender.gone = false

theorem Receiver.write_gone {r : Receiver} {s : Str} : (r.write s).1.gone = r.gone := by
  rw [Receiver.write]
  split_ifs <;> rfl

theorem Receiver.transferring_gone {m : Agreement} (fuel : ℕ) {r : Receiver} :
    (Receiver.transferring m fuel r).1.gone = r.gone := by
  induction fuel generalizing r with
  | zero => rfl
  | succ fuel ih =>
    rw [Receiver.transferring]
    split
    · dsimp only
      split_ifs
      · rfl
      · exact Receiver.write_gone
      · rfl
      · rfl
      · rfl
      · exact Receiver.write_gone
      · exact ih
    · rfl

theorem Receiver.handleReceive_gone {m : Agreement} {r : Receiver} :
    (r.handleReceive m).1.gone = r.gone := by
  rw [Receiver.handleReceive]
  split_ifs
  · exact Receiver.transferring_gone _
  · rw [Receiver.handleReceive_Negotiating]
    rcases getLine r.readBuffer with _ | ⟨args, rest⟩
    · rfl
    · change (({ r with readBuffer := rest } : Receiver).answer m args).1.gone = r.gone
      rw [Receiver.answer]
      split_ifs
      · exact Receiver.write_gone
      · exact Receiver.write_gone
      · rfl
      · rfl

theorem Up.reads {m : Agreement} (hm : m.Plain) {n : Net} (h : Up m n)
    (hne : n.view.toReceiver ≠ []) :
    ∃ n₁ : Net, n₁.view = n.view ∧ n₁.wire = [] ∧ Open n₁.receiver ∧
      (n₁.receiverActs m).sender = n.sender ∧ Leads m n (n₁.receiverActs m) ∧
      Up m (n₁.receiverActs m) := by
  have hst := next_receiverData (m := m) h.gone h.connected (h.handled.blocks hne)
  have hwhole := whole_of_next hst
  have ho : Open (n.atReceiver n.wire.length).receiver :=
    ⟨h.connected, h.fair.flushed h.connected⟩
  refine ⟨_, view_atReceiver n n.wire.length, List.drop_length, ho, rfl, .single ⟨_, rfl, hst⟩,
    ⟨step_fair hm h.fair hwhole, step_handled hm h.fair h.handled hwhole, ?_, ?_⟩⟩
  · refine (receiverActs_phase ho ?_).2.connected
    rw [view_atReceiver]
    exact h.fair.phase
  · exact Receiver.handleReceive_gone.trans h.gone

theorem Sender.answer_kept {m : Agreement} {s : Sender} {args : List Str} :
    (s.answer m args).1.connected = s.connected ∧ (s.answer m args).1.gone = s.gone := by
  rw [Sender.answer]
  split_ifs <;> exact ⟨rfl, rfl⟩

theorem Sender.handleSend_kept {m : Agreement} {s : Sender} (hc : s.connected = true)
    (hfd : s.fd = none) : (s.handleSend m).1.connected = true ∧ (s.handleSend m).1.gone = s.gone := by
  have hs : s.handleSend m = s.handleSend_Negotiating m := by
    rw [Sender.handleSend, if_pos hc, hfd]
  rw [hs, Sender.handleSend_Negotiating]
  rcases getLine s.readBuffer with _ | ⟨args, rest⟩
  · exact ⟨hc, rfl⟩
  · obtain ⟨h1, h2⟩ := @Sender.answer_kept m { s with readBuffer := rest } args
    exact ⟨h1.trans hc, h2⟩

theorem Ready.reads {m : Agreement} (hm : m.Plain) {n : Net} (h : Ready m n)
    (hfd : n.sender.fd = none) (hne : n.view.toSender ≠ []) :
    ∃ n₁ : Net, n₁.view = n.view ∧ n₁.back ++ n₁.receiver.writeBuffer = [] ∧
      n₁.sender.connected = true ∧ Leads m n (n₁.senderActs m) ∧ Ready m (n₁.senderActs m) := by
  have hflush := h.fair.flushed h.connected
  have hback : n.back ≠ [] := by
    have hb := h.handled.lines hfd hne
    rwa [hflush, List.append_nil] at hb
  have hst := next_senderData (m := m) h.senderGone h.senderConnected hback
  have hwhole := whole_of_next hst
  obtain ⟨hc, hg⟩ := Sender.handleSend_kept (m := m) (s := (n.atSender n.back.length).sender)
    h.senderConnected hfd
  refine ⟨_, view_atSender n n.back.length, ?_, h.senderConnected,
    .single ⟨_, rfl, hst⟩, ⟨⟨step_fair hm h.fair hwhole, step_handled hm h.fair h.handled hwhole,
      h.connected, h.gone⟩, hc, hg.trans h.senderGone⟩⟩
  rw [Net.atSender, List.drop_length]
  exact hflush

theorem Up.ready {m : Agreement} (hm : m.Plain) {n : Net} (h : Up m n)
    (hgone : n.sender.gone = false) : ∃ n', Leads m n n' ∧ Ready m n' ∧ n'.view = n.view := by
  by_cases hc : n.sender.connected = true
  · exact ⟨n, .refl, ⟨h, hc, hgone⟩, rfl⟩
  · have hst := next_writable (m := m) hgone
    have hwhole := whole_of_next hst
    have hs := Sender.handleSend_waiting (m := m) (Bool.eq_false_iff.mpr hc)
    refine ⟨_, .single ⟨_, rfl, hst⟩, ⟨⟨step_fair hm h.fair hwhole,
      step_handled hm h.fair h.handled hwhole, h.connected, h.gone⟩, ?_, ?_⟩, ?_⟩
    · rw [senderActs_of hs]
    · rw [senderActs_of hs]
      exact hgone
    · rw [senderActs_view hs, List.append_nil]
      rfl

/-- The blocks that are on the way when all is sent are the rest of the file. -/
theorem leads_of_sent {m : Agreement} (hm : m.Plain) (hpos : 0 < m.fileSize) {n : Net}
    {bs : List Str} {w : Str} (h : Up m n) (hmv : Moving m bs w m.fileSize)
    (hv : n.view = .moving m bs w m.fileSize) :
    ∃ n', Leads m n n' ∧ n'.view = .complete m := by
  have hrest : ∀ {bs w}, Moving m bs w m.fileSize → bs ≠ [] := by
    intro bs w hmv hbs
    have hlen := congrArg List.length hmv.file
    rw [hbs, List.flatten_nil, List.append_nil, List.length_take, image_length] at hlen
    have := hmv.more hpos
    omega
  have hne : n.view.toReceiver ≠ [] := by
    rw [hv]
    intro hnil
    obtain ⟨b, bs', rfl⟩ := List.exists_cons_of_ne_nil (hrest hmv)
    cases hnil
  obtain ⟨n₁, hview, hwire, ho, -, hl, -⟩ := h.reads hm hne
  rcases (receiverActs_moving ho hmv (hview.trans hv)).1 with ⟨bs', w', hmv', -, hbs⟩ | hs
  · exact absurd hwire (hbs (hrest hmv'))
  · exact ⟨_, hl, hs⟩

theorem leads_of_moving {m : Agreement} (hm : m.Plain) (hpos : 0 < m.fileSize) {n : Net}
    {bs : List Str} {w : Str} {d : ℕ} (h : Ready m n) (hmv : Moving m bs w d)
    (hv : n.view = .moving m bs w d) : ∃ n', Leads m n n' ∧ n'.view = .complete m := by
  induction hk : m.fileSize - d using Nat.strongRecOn generalizing n bs d with
  | ind k ih =>
    rcases Nat.lt_or_ge d m.fileSize with hlt | hge
    · obtain ⟨d', bs', hd', hmv', hview, hgone⟩ :=
        senderActs_moving hm h.senderConnected hmv hlt hv
      have hst := next_writable (m := m) h.senderGone
      have hwhole := whole_of_next hst
      have hc : (n.senderActs m).sender.connected = true := by
        obtain ⟨k, -, -, -, hs⟩ := Sender.handleSend_moving hm h.senderConnected
          (congrArg View.sending hv) (congrArg View.sent hv) hlt
        rw [senderActs_of hs]
        exact h.senderConnected
      have hr : Ready m (n.senderActs m) := ⟨⟨step_fair hm h.fair hwhole,
        step_handled hm h.fair h.handled hwhole, h.connected, h.gone⟩, hc, hgone.trans h.senderGone⟩
      have hlt' : m.fileSize - d' < k := by omega
      obtain ⟨n', hl, hend⟩ := ih _ hlt' hr hmv' hview rfl
      exact ⟨n', .trans (.single ⟨_, rfl, hst⟩) hl, hend⟩
    · have hd : d = m.fileSize := Nat.le_antisymm hmv.sent hge
      subst hd
      exact leads_of_sent hm hpos h.toUp hmv hv

theorem Up.ready_of_sender {m : Agreement} {n n' : Net} (h : Ready m n) (hu : Up m n')
    (hs : n'.sender = n.sender) : Ready m n' :=
  ⟨hu, by rw [hs]; exact h.senderConnected, by rw [hs]; exact h.senderGone⟩

theorem leads_of_asked {m : Agreement} (hm : m.Plain) (hpos : 0 < m.fileSize)
    (hr : m.canRead = true) {n : Net} (h : Ready m n) (hv : n.view = .line tfrLine [] true) :
    ∃ n', Leads m n n' ∧ n'.view = .complete m := by
  obtain ⟨n₁, hview, hq, hc, hl, hready⟩ := h.reads hm (congrArg View.sending hv)
    (by rw [hv]; intro hnil; cases hnil)
  rcases senderActs_asked (m := m) hc (hview.trans hv) with ⟨hne, -⟩ | hs
  · exact absurd hq hne
  · rw [if_pos hr] at hs
    obtain ⟨n', hl', hend⟩ := leads_of_moving hm hpos hready (Moving.start m) hs
    exact ⟨n', .trans hl hl', hend⟩

theorem leads_of_offered {m : Agreement} (hm : m.Plain) (hpos : 0 < m.fileSize)
    (hr : m.canRead = true) (hw : m.canWrite = true) {n : Net} (h : Ready m n)
    (hv : n.view = .line [] (filLine m) false) :
    ∃ n', Leads m n n' ∧ n'.view = .complete m := by
  obtain ⟨n₁, hview, hwire, ho, hsend, hl, hup⟩ := h.toUp.reads hm
    (by rw [hv]; intro hnil; cases hnil)
  rcases (receiverActs_offered (m := m) ho (hview.trans hv)).1 with ⟨hne, -⟩ | hs
  · exact absurd hwire hne
  · rw [if_pos hw] at hs
    obtain ⟨n', hl', hend⟩ := leads_of_asked hm hpos hr (Up.ready_of_sender h hup hsend) hs
    exact ⟨n', .trans hl hl', hend⟩

theorem leads_of_named {m : Agreement} (hm : m.Plain) (hpos : 0 < m.fileSize)
    (hr : m.canRead = true) (hw : m.canWrite = true) {n : Net} (h : Ready m n)
    (hv : n.view = .line (usrLine m) [] false) : ∃ n', Leads m n n' ∧ n'.view = .complete m := by
  obtain ⟨n₁, hview, hq, hc, hl, hready⟩ := h.reads hm (congrArg View.sending hv)
    (by rw [hv]; intro hnil; cases hnil)
  rcases senderActs_named hm hc (hview.trans hv) with ⟨hne, -⟩ | hs
  · exact absurd hq hne
  · obtain ⟨n', hl', hend⟩ := leads_of_offered hm hpos hr hw hready hs
    exact ⟨n', .trans hl hl', hend⟩

theorem leads_of_greeted {m : Agreement} (hm : m.Plain) (hpos : 0 < m.fileSize)
    (hr : m.canRead = true) (hw : m.canWrite = true) {n : Net} (h : Ready m n)
    (hv : n.view = .line [] verLine false) : ∃ n', Leads m n n' ∧ n'.view = .complete m := by
  obtain ⟨n₁, hview, hwire, ho, hsend, hl, hup⟩ := h.toUp.reads hm
    (by rw [hv]; intro hnil; cases hnil)
  rcases (receiverActs_greeted (m := m) ho (hview.trans hv)).1 with ⟨hne, -⟩ | hs
  · exact absurd hwire hne
  · obtain ⟨n', hl', hend⟩ := leads_of_named hm hpos hr hw (Up.ready_of_sender h hup hsend) hs
    exact ⟨n', .trans hl hl', hend⟩

theorem leads_of_greeting {m : Agreement} (hm : m.Plain) (hpos : 0 < m.fileSize)
    (hr : m.canRead = true) (hw : m.canWrite = true) {n : Net} (h : Ready m n)
    (hv : n.view = .line verLine [] false) : ∃ n', Leads m n n' ∧ n'.view = .complete m := by
  obtain ⟨n₁, hview, hq, hc, hl, hready⟩ := h.reads hm (congrArg View.sending hv)
    (by rw [hv]; intro hnil; cases hnil)
  rcases senderActs_greeting (m := m) hc (hview.trans hv) with ⟨hne, -⟩ | hs
  · exact absurd hq hne
  · obtain ⟨n', hl', hend⟩ := leads_of_greeted hm hpos hr hw hready hs
    exact ⟨n', .trans hl hl', hend⟩

/-- In every phase there is a way to the end, if the sender is there or has sent it all. -/
theorem Up.leads {m : Agreement} (hm : m.Plain) (hpos : 0 < m.fileSize) (hr : m.canRead = true)
    (hw : m.canWrite = true) {n : Net} (h : Up m n)
    (hs : n.sender.gone = false ∨ n.sender.succeeded = true) :
    ∃ n', Leads m n n' ∧ n'.view = .complete m := by
  have hp := h.fair.phase
  generalize hv : n.view = v at hp
  rcases hs with hgone | hsucc
  · obtain ⟨n₁, hl, hready, hview⟩ := h.ready hm hgone
    have hv₁ := hview.trans hv
    have hgo : ∀ {n₂}, Leads m n₁ n₂ ∧ n₂.view = .complete m →
        ∃ n', Leads m n n' ∧ n'.view = .complete m :=
      fun h₂ => ⟨_, .trans hl h₂.1, h₂.2⟩
    cases hp with
    | greeting =>
      obtain ⟨_, h₂⟩ := leads_of_greeting hm hpos hr hw hready hv₁
      exact hgo h₂
    | greeted =>
      obtain ⟨_, h₂⟩ := leads_of_greeted hm hpos hr hw hready hv₁
      exact hgo h₂
    | named =>
      obtain ⟨_, h₂⟩ := leads_of_named hm hpos hr hw hready hv₁
      exact hgo h₂
    | offered =>
      obtain ⟨_, h₂⟩ := leads_of_offered hm hpos hr hw hready hv₁
      exact hgo h₂
    | asked =>
      obtain ⟨_, h₂⟩ := leads_of_asked hm hpos hr hready hv₁
      exact hgo h₂
    | refusedWrite hcan => exact absurd hw (by rw [hcan]; simp)
    | refusedRead hcan => exact absurd hr (by rw [hcan]; simp)
    | moving hmv =>
      obtain ⟨_, h₂⟩ := leads_of_moving hm hpos hready hmv hv₁
      exact hgo h₂
    | arrived => exact ⟨n, .refl, hv⟩
  · obtain ⟨-, hfd, hd⟩ := h.fair.ended hsucc
    have hsend : n.sender.fd = v.sending := by rw [← hv]; rfl
    have hsent : n.sender.bytes_done = v.sent := by rw [← hv]; rfl
    cases hp with
    | @moving bs w d hmv =>
      have hall : d = m.fileSize := hsent.symm.trans hd
      subst hall
      exact leads_of_sent hm hpos h hmv hv
    | arrived => exact ⟨n, .refl, hv⟩
    | _ => exact absurd hsend hfd

/-- As long as neither connection is lost and both files can be opened, the receiver can still
report success. -/
theorem whole_completes {m : Agreement} (hm : m.Plain) (hpos : 0 < m.fileSize)
    (hr : m.canRead = true) (hw : m.canWrite = true) {n : Net} (h : WholeReachable m n)
    (hgone : n.receiver.gone = false)
    (hs : n.sender.gone = false ∨ n.sender.succeeded = true) :
    ∃ n', Leads m n n' ∧ n'.receiver.succeeded = true ∧ n'.receiver.written = image m := by
  have hfair := reachable_fair hm h
  have hhandled : Handled n := by
    have hboth : Fair m n ∧ Handled n := by
      apply h.invariant (I := fun n => Fair m n ∧ Handled n)
      · rintro n ⟨c, rfl⟩
        refine ⟨start_fair m c, ?_, fun hne => absurd (by cases c <;> rfl) hne⟩
        intro _ _
        cases c <;> decide
      · intro n e n' hn _ hst
        exact ⟨step_fair hm hn.1 hst, step_handled hm hn.1 hn.2 hst⟩
    exact hboth.2
  have hup : ∃ n₁, Leads m n n₁ ∧ Up m n₁ ∧ n₁.sender = n.sender := by
    by_cases hc : n.receiver.connected = true
    · exact ⟨n, .refl, ⟨hfair, hhandled, hc, hgone⟩, rfl⟩
    · have hst := next_receiverConnected (m := m) hgone (Bool.eq_false_iff.mpr hc)
      have hwhole := whole_of_next hst
      exact ⟨_, .single ⟨_, rfl, hst⟩,
        ⟨step_fair hm hfair hwhole, step_handled hm hfair hhandled hwhole, rfl, hgone⟩, rfl⟩
  obtain ⟨n₁, hl₁, hup, hsame⟩ := hup
  rw [← hsame] at hs
  obtain ⟨n', hl, hv⟩ := hup.leads hm hpos hr hw hs
  exact ⟨n', .trans hl₁ hl, congrArg View.arrived hv, congrArg View.written hv⟩

/-- In every run, as long as no connection is lost and both files can be opened, the receiver can
still report success with the whole file written. -/
theorem completes {m : Agreement} (hm : m.Plain) (hsize : m.content.length = m.fileSize)
    (hpos : 0 < m.fileSize) (hr : m.canRead = true) (hw : m.canWrite = true) {n : Net}
    (h : Reachable m n) (hgone : n.receiver.gone = false)
    (hs : n.sender.gone = false ∨ n.sender.succeeded = true) :
    ∃ n', Leads m n n' ∧ n'.receiver.succeeded = true ∧ n'.receiver.written = m.content := by
  obtain ⟨n₀, hreach, hcut⟩ := reachable_cut hm h
  have hwire : n.wire = n₀.wire := by
    rcases hs with hg | hsucc
    · exact (hcut.wire_eq hg).symm
    · obtain ⟨x, hx, rfl | ⟨-, hnot⟩⟩ := hcut.wire
      · rw [hx, List.append_nil]
      · rw [hsucc] at hnot
        cases hnot
  -- Nothing is lost here: the run is one in which no write breaks.
  have hsame : n = n₀ := by
    cases n
    cases n₀
    simp only [Net.mk.injEq]
    exact ⟨hcut.sender, hcut.intact hgone, hwire, (hcut.back_eq hgone).symm⟩
  rw [← image_eq hsize]
  rw [← hsame] at hreach
  exact whole_completes hm hpos hr hw hreach hgone hs

theorem completes_letter : ∃ n n' : Net,
    (Net.start false).after letter (letterEvents.take 9) = some n ∧
    n.sender.fd = none ∧ Leads letter n n' ∧ n'.receiver.succeeded = true ∧
    n'.receiver.written = letter.content := by
  have hrun : (((Net.start false).after letter (letterEvents.take 9)).map fun n =>
      (n.sender.fd, n.sender.gone, n.receiver.gone)) = some (none, false, false) := by
    decide +kernel
  obtain ⟨n, hn, hv⟩ := Option.map_eq_some_iff.mp hrun
  simp only [Prod.mk.injEq] at hv
  obtain ⟨hfd, hg, hgone⟩ := hv
  have hr : Reachable letter n := Reachable.after (.init (.start false)) _ hn
  obtain ⟨n', hl, hsucc, hall⟩ :=
    completes letter_plain rfl (by decide) rfl rfl hr hgone (.inl hg)
  exact ⟨n, n', hn, hfd, hl, hsucc, hall⟩

end CenterIM.MsnTransfer
