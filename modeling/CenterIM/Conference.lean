import CenterIM.Contact

/-!
# Members of Yahoo conferences

The callbacks of the Yahoo library keep a list of members for each conference room. The one a
room is named after is put into the list by every invitation. The members that the library
gives with an invitation include the one who sent it. Character set conversion is a parameter.
-/
namespace CenterIM.Conference
open ByteText StrText Contact

abbrev NOTIFBUF : ℕ := 512

structure YahooHook where
  /-- The contacts of the list. -/
  clist : List ImContact
  /-- A room that is not in the map has no members. -/
  confmembers : Str → List Str := fun _ => []
  /-- The notifications that were stored. -/
  stored : List (ImContact × Str) := []
  /-- The rooms that wait for `tbdConfLogon`. -/
  tobedone : List Str := []

namespace YahooHook

def contact (room : Str) : ImContact := ImContact.ofNick (35 :: room) .yahoo

/-- Does `clist.get` find the contact of this room? -/
def known (h : YahooHook) (room : Str) : Bool := h.clist.any (·.eq (contact room))

def store (h : YahooHook) (c : ImContact) (text : Str) : YahooHook :=
  { h with stored := h.stored ++ [(c, text)] }

def setMembers (h : YahooHook) (room : Str) (lst : List Str) : YahooHook :=
  { h with confmembers := Function.update h.confmembers room lst }

def inviter (room : Str) : Str :=
  match rfind 45 room with
  | some i => room.take i
  | none => room

def addMembers (nickname : Str) (lst members : List Str) : List Str :=
  members.foldl (fun lst id =>
    if id ≠ nickname then if id ∈ lst then lst else lst ++ [id] else lst) lst

/-- `yahoohook::got_conf_invite`. -/
def got_conf_invite (rusconv : Str → Str) (nickname : Str) (h : YahooHook) (room msg : Str)
    (members : List Str) : YahooHook :=
  let cont := contact room
  let h := if h.known room then h else { h with clist := h.clist ++ [cont] }
  let buf := snprintf NOTIFBUF (bytes "The user " ++ cstr (rusconv (inviter room)) ++
    bytes " has invited you to the " ++ cstr (rusconv room) ++
    bytes " conference, the topic there is: " ++ cstr (rusconv msg))
  let lst := addMembers nickname (h.confmembers room ++ [inviter room]) members
  let text := buf ++ bytes "\n\n" ++ bytes "Current conference members are: " ++
    (lst.intersperse (bytes ", ")).flatten
  let h := ((h.setMembers room lst).store cont text).store cont (bytes "Auto-joined the conference")
  { h with tobedone := h.tobedone ++ [room] }

/-- `yahoohook::conf_userjoin`. -/
def conf_userjoin (h : YahooHook) (who room : Str) : YahooHook :=
  if h.known room then
    let buf := snprintf NOTIFBUF (bytes "The user " ++ who ++ bytes " has joined the conference")
    let lst := h.confmembers room
    let h := if who ∈ lst then h else h.setMembers room (lst ++ [who])
    h.store (contact room) buf
  else h

/-- `yahoohook::conf_userleave`. -/
def conf_userleave (h : YahooHook) (who room : Str) : YahooHook :=
  if h.known room then
    let buf := snprintf NOTIFBUF (bytes "The user " ++ who ++ bytes " has left the conference")
    let h := h.store (contact room) buf
    h.setMembers room ((h.confmembers room).erase who)
  else h

/-- `yahoohook::getmembers`. -/
def getmembers (h : YahooHook) (room : Str) : List Str := h.confmembers room

end YahooHook

open YahooHook

inductive Event
  | invite (room msg : Str) (members : List Str)
  | join (who room : Str)
  | leave (who room : Str)

def step (rusconv : Str → Str) (nickname : Str) (h : YahooHook) : Event → YahooHook
  | .invite room msg members => h.got_conf_invite rusconv nickname room msg members
  | .join who room => h.conf_userjoin who room
  | .leave who room => h.conf_userleave who room

/-- The users in a room: those who were named by an invitation or a join and have not left since,
without our own id. -/
def present (nickname room : Str) (users : Finset Str) : Event → Finset Str
  | .invite r _ members =>
    if r = room then (users ∪ insert (inviter r) members.toFinset).erase nickname else users
  | .join who r => if r = room then (insert who users).erase nickname else users
  | .leave who r => if r = room then users.erase who else users

/-- The list of a room has each of these users once, and nobody else. -/
def Lists (h : YahooHook) (room : Str) (users : Finset Str) : Prop :=
  (h.getmembers room).Nodup ∧ (h.getmembers room).toFinset = users

def AlwaysLists (rusconv : Str → Str) (nickname room : Str) :
    YahooHook → Finset Str → List Event → Prop
  | _, _, [] => True
  | h, users, e :: es =>
    let h := step rusconv nickname h e
    let users := present nickname room users e
    Lists h room users ∧ AlwaysLists rusconv nickname room h users es

/-- The events that the list follows: an invitation to a room whose namesake is someone else and
not in the list, a join or a leave of someone else when the room has a contact, and without a
contact one that changes nothing. -/
def Follows (nickname room : Str) (h : YahooHook) : Event → Prop
  | .invite r _ _ => r = room → inviter r ≠ nickname ∧ inviter r ∉ h.confmembers room
  | .join who r => r = room →
    if h.known room then who ≠ nickname else who = nickname ∨ who ∈ h.confmembers room
  | .leave who r => r = room → h.known room = true ∨ who ∉ h.confmembers room

def AlwaysFollows (rusconv : Str → Str) (nickname room : Str) : YahooHook → List Event → Prop
  | _, [] => True
  | h, e :: es =>
    Follows nickname room h e ∧ AlwaysFollows rusconv nickname room (step rusconv nickname h e) es

section Step

variable {rusconv : Str → Str} {nickname room : Str} {h : YahooHook} {users : Finset Str}

theorem mem_addMembers {lst members : List Str} {u : Str} :
    u ∈ addMembers nickname lst members ↔ u ∈ lst ∨ (u ∈ members ∧ u ≠ nickname) := by
  induction members generalizing lst with
  | nil => simp [addMembers]
  | cons id members ih =>
    have hfold : addMembers nickname lst (id :: members) = addMembers nickname
        (if id ≠ nickname then if id ∈ lst then lst else lst ++ [id] else lst) members := rfl
    rw [hfold, ih, List.mem_cons]
    split_ifs with hown hmem
    · constructor
      · intro h
        exact h.imp_right fun h => ⟨Or.inr h.1, h.2⟩
      · intro h
        obtain h | ⟨rfl | h, hne⟩ := h
        · exact Or.inl h
        · exact Or.inl hmem
        · exact Or.inr ⟨h, hne⟩
    · rw [List.mem_append, List.mem_singleton]
      constructor
      · intro h
        obtain (h | rfl) | h := h
        · exact Or.inl h
        · exact Or.inr ⟨Or.inl rfl, hown⟩
        · exact Or.inr ⟨Or.inr h.1, h.2⟩
      · intro h
        obtain h | ⟨h | h, hne⟩ := h
        · exact Or.inl (Or.inl h)
        · exact Or.inl (Or.inr h)
        · exact Or.inr ⟨h, hne⟩
    · constructor
      · intro h
        exact h.imp_right fun h => ⟨Or.inr h.1, h.2⟩
      · intro h
        obtain h | ⟨rfl | h, hne⟩ := h
        · exact Or.inl h
        · exact absurd hne hown
        · exact Or.inr ⟨h, hne⟩

theorem nodup_addMembers {lst members : List Str} :
    (addMembers nickname lst members).Nodup ↔ lst.Nodup := by
  induction members generalizing lst with
  | nil => rfl
  | cons id members ih =>
    have hfold : addMembers nickname lst (id :: members) = addMembers nickname
        (if id ≠ nickname then if id ∈ lst then lst else lst ++ [id] else lst) members := rfl
    rw [hfold, ih]
    split_ifs with hown hmem
    · rfl
    · rw [List.nodup_append]
      simp only [List.mem_singleton, List.nodup_singleton, true_and]
      refine and_iff_left fun a ha b hb hab => hmem ?_
      rw [← hb, ← hab]
      exact ha
    · rfl

theorem getmembers_invite (r msg : Str) (members : List Str) :
    (step rusconv nickname h (.invite r msg members)).getmembers room =
      if r = room then addMembers nickname (h.confmembers room ++ [inviter room]) members
      else h.confmembers room := by
  have hmembers : (step rusconv nickname h (.invite r msg members)).confmembers =
      Function.update h.confmembers r
        (addMembers nickname (h.confmembers r ++ [inviter r]) members) := by
    simp only [step, got_conf_invite, setMembers, store]
    split_ifs <;> rfl
  rw [getmembers, hmembers]
  split_ifs with hr
  · rw [hr, Function.update_self]
  · exact Function.update_of_ne (Ne.symm hr) _ _

theorem getmembers_join (who r : Str) :
    (step rusconv nickname h (.join who r)).getmembers room =
      if r = room ∧ h.known room = true ∧ who ∉ h.confmembers room then
        h.confmembers room ++ [who]
      else h.confmembers room := by
  simp only [step, conf_userjoin, getmembers]
  by_cases hr : r = room
  · subst hr
    by_cases hk : h.known r = true
    · by_cases hw : who ∈ h.confmembers r
      · simp [hk, hw, store]
      · simp [hk, hw, store, setMembers]
    · simp [hk]
  · have hright : ¬ (r = room ∧ h.known room = true ∧ who ∉ h.confmembers room) := fun h => hr h.1
    have hne : room ≠ r := Ne.symm hr
    rw [if_neg hright]
    split_ifs
    · rfl
    · simp [store, setMembers, hne]
    · rfl

theorem getmembers_leave (who r : Str) :
    (step rusconv nickname h (.leave who r)).getmembers room =
      if r = room ∧ h.known room = true then (h.confmembers room).erase who
      else h.confmembers room := by
  simp only [step, conf_userleave, getmembers]
  by_cases hr : r = room
  · subst hr
    by_cases hk : h.known r = true
    · simp [hk, store, setMembers]
    · simp [hk]
  · have hright : ¬ (r = room ∧ h.known room = true) := fun h => hr h.1
    have hne : room ≠ r := Ne.symm hr
    rw [if_neg hright]
    split_ifs
    · simp [store, setMembers, hne]
    · rfl

theorem lists_join {lst : List Str} {who : Str} {known : Bool} (hnodup : lst.Nodup)
    (hown : nickname ∉ lst) :
    ((if known = true ∧ who ∉ lst then lst ++ [who] else lst).Nodup ∧
      (if known = true ∧ who ∉ lst then lst ++ [who] else lst).toFinset =
        (insert who lst.toFinset).erase nickname) ↔
      if known = true then who ≠ nickname else who = nickname ∨ who ∈ lst := by
  simp only [Finset.ext_iff, List.mem_toFinset, Finset.mem_erase, Finset.mem_insert]
  by_cases hmem : who ∈ lst
  · have hother : who ≠ nickname := fun he => hown (he ▸ hmem)
    have hset : ∀ u, u ∈ lst ↔ u ≠ nickname ∧ (u = who ∨ u ∈ lst) := by
      intro u
      constructor
      · exact fun hu => ⟨fun he => hown (he ▸ hu), Or.inr hu⟩
      · intro ⟨_, hu⟩
        obtain rfl | hu := hu
        · exact hmem
        · exact hu
    simp [hmem, hnodup, hother, ← hset]
  · cases known with
    | true =>
      have happ : (lst ++ [who]).Nodup := by
        rw [List.nodup_append]
        refine ⟨hnodup, List.nodup_singleton _, fun a ha b hb hab => hmem ?_⟩
        rw [List.mem_singleton] at hb
        rw [← hb, ← hab]
        exact ha
      rw [if_pos ⟨rfl, hmem⟩, if_pos rfl, and_iff_right happ]
      constructor
      · intro hset he
        exact ((hset who).mp (by simp)).1 he
      · intro hne u
        rw [List.mem_append, List.mem_singleton, or_comm]
        refine (and_iff_right_of_imp fun hu he => ?_).symm
        obtain rfl | hu := hu
        · exact hne he
        · exact hown (he ▸ hu)
    | false =>
      simp only [Bool.false_eq_true, false_and, if_false, hmem, or_false, and_iff_right hnodup]
      constructor
      · intro hset
        by_contra hne
        exact hmem ((hset who).mpr ⟨hne, Or.inl rfl⟩)
      · intro he u
        constructor
        · exact fun hu => ⟨fun h => hown (h ▸ hu), Or.inr hu⟩
        · intro ⟨hu, hor⟩
          exact hor.resolve_left fun h => hu (h.trans he)

theorem lists_leave {lst : List Str} {who : Str} {known : Bool} (hnodup : lst.Nodup) :
    ((if known = true then lst.erase who else lst).Nodup ∧
      (if known = true then lst.erase who else lst).toFinset = lst.toFinset.erase who) ↔
        known = true ∨ who ∉ lst := by
  cases known with
  | true =>
    rw [if_pos rfl]
    refine ⟨fun _ => Or.inl rfl, fun _ => ⟨hnodup.erase who, ?_⟩⟩
    ext u
    rw [List.mem_toFinset, hnodup.mem_erase_iff, Finset.mem_erase, List.mem_toFinset]
  | false =>
    simp only [Bool.false_eq_true, if_false, false_or, and_iff_right hnodup]
    rw [eq_comm, Finset.erase_eq_self, List.mem_toFinset]

/-- From a right list an event makes a right one just when the list follows it. -/
theorem lists_step (e : Event) (hlist : Lists h room users) (hown : nickname ∉ users) :
    Lists (step rusconv nickname h e) room (present nickname room users e) ↔
      Follows nickname room h e := by
  obtain ⟨hnodup, rfl⟩ := hlist
  rw [List.mem_toFinset] at hown
  change (h.confmembers room).Nodup at hnodup
  change nickname ∉ h.confmembers room at hown
  cases e with
  | invite r msg members =>
    rw [Lists, getmembers_invite, present, Follows]
    by_cases hr : r = room
    · subst hr
      rw [if_pos rfl, if_pos rfl, nodup_addMembers, List.nodup_append]
      simp only [forall_const, Finset.ext_iff, List.mem_toFinset, mem_addMembers,
        Finset.mem_erase, Finset.mem_union, Finset.mem_insert, List.mem_append, List.mem_singleton]
      constructor
      · intro ⟨⟨_, _, hnew⟩, hmem⟩
        refine ⟨fun he => ?_, fun hin => hnew _ hin _ rfl rfl⟩
        exact ((hmem nickname).mp (Or.inl (Or.inr he.symm))).1 rfl
      · intro ⟨hother, hnew⟩
        refine ⟨⟨hnodup, List.nodup_singleton _, ?_⟩, fun u => ?_⟩
        · intro a ha b hb hab
          exact hnew (by rw [← hb, ← hab]; exact ha)
        · constructor
          · intro hu
            obtain (hu | rfl) | ⟨hu, hne⟩ := hu
            · exact ⟨fun he => hown (he ▸ hu), Or.inl hu⟩
            · exact ⟨hother, Or.inr (Or.inl rfl)⟩
            · exact ⟨hne, Or.inr (Or.inr hu)⟩
          · intro ⟨hne, hu⟩
            obtain hu | rfl | hu := hu
            · exact Or.inl (Or.inl hu)
            · exact Or.inl (Or.inr rfl)
            · exact Or.inr ⟨hu, hne⟩
    · rw [if_neg hr, if_neg hr]
      exact ⟨fun _ h => absurd h hr, fun _ => ⟨hnodup, rfl⟩⟩
  | join who r =>
    rw [Lists, getmembers_join, present, Follows]
    by_cases hr : r = room
    · subst hr
      simp only [true_and, if_true, forall_const]
      exact lists_join hnodup hown
    · rw [if_neg (show ¬ (r = room ∧ _) from fun h => hr h.1), if_neg hr]
      exact ⟨fun _ h => absurd h hr, fun _ => ⟨hnodup, rfl⟩⟩
  | leave who r =>
    rw [Lists, getmembers_leave, present, Follows]
    by_cases hr : r = room
    · subst hr
      simp only [true_and, if_true, forall_const]
      exact lists_leave hnodup
    · rw [if_neg (show ¬ (r = room ∧ _) from fun h => hr h.1), if_neg hr]
      exact ⟨fun _ h => absurd h hr, fun _ => ⟨hnodup, rfl⟩⟩

theorem own_not_present (e : Event) (hown : nickname ∉ users) :
    nickname ∉ present nickname room users e := by
  cases e with
  | invite r msg members =>
    rw [present]
    split_ifs
    · exact Finset.notMem_erase _ _
    · exact hown
  | join who r =>
    rw [present]
    split_ifs
    · exact Finset.notMem_erase _ _
    · exact hown
  | leave who r =>
    rw [present]
    split_ifs
    · exact fun hm => hown (Finset.mem_of_mem_erase hm)
    · exact hown

theorem alwaysLists_from (events : List Event) (hlist : Lists h room users)
    (hown : nickname ∉ users) :
    AlwaysLists rusconv nickname room h users events ↔
      AlwaysFollows rusconv nickname room h events := by
  induction events generalizing h users with
  | nil => rfl
  | cons e es ih =>
    rw [AlwaysLists, AlwaysFollows]
    rw [lists_step e hlist hown]
    refine and_congr_right fun hfollows => ?_
    exact ih ((lists_step e hlist hown).mpr hfollows) (own_not_present e hown)

end Step

/-- The list of a room is right after every event just when it follows each of them. -/
theorem alwaysLists_iff (rusconv : Str → Str) (nickname room : Str) (clist : List ImContact)
    (events : List Event) :
    AlwaysLists rusconv nickname room ⟨clist, fun _ => [], [], []⟩ ∅ events ↔
      AlwaysFollows rusconv nickname room ⟨clist, fun _ => [], [], []⟩ events :=
  alwaysLists_from events ⟨List.nodup_nil, rfl⟩ (Finset.notMem_empty _)

/-- A second invitation to a room lists the one it is named after twice. -/
theorem invited_twice : ¬ ∀ (rusconv : Str → Str) (nickname room : Str) (clist : List ImContact)
    (events : List Event), AlwaysLists rusconv nickname room ⟨clist, fun _ => [], [], []⟩ ∅ events := by
  intro h
  have hinvite := h id (bytes "me") (bytes "al-1") []
    [.invite (bytes "al-1") [] [bytes "al"], .invite (bytes "al-1") [] [bytes "al"]]
  obtain ⟨-, ⟨hnodup, -⟩, -⟩ := hinvite
  rw [getmembers_invite, if_pos rfl, nodup_addMembers, List.nodup_append] at hnodup
  exact hnodup.2.2 (bytes "al") (by decide) (bytes "al") (by decide) rfl

end CenterIM.Conference
