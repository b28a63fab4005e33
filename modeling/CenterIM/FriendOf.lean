import CenterIM.LiveJournal

/-!
# Who has the user for a friend

The answer about friends is compared with the list of those who had the user for a friend: who
is new is added and who is gone is erased, with a notification for each of them.
-/
namespace CenterIM.FriendOf
open ByteText Decimal StrText Event LiveJournal

/-- A successful answer that lists these users. -/
structure FriendsResponse (pairs : List (Str × Str)) (users : List Str) : Prop where
  success : Gives pairs (bytes "success") (bytes "OK")
  count : ∃ v, Gives pairs (bytes "friendof_count") v ∧ (atoi v).toInt = users.length
  user : ∀ i u, users[i]? = some u →
    Gives pairs (bytes "friendof_" ++ i2str (Int32.ofNat (i + 1)) ++ bytes "_user") u
  nonempty : ∀ u ∈ users, u ≠ []

/-- The list has the users of the answer, each once, and there was one notification for each of
them who is new, unless nobody was listed before, and for each one who is gone. -/
structure Reconciled (server : Str) (h : LjHook) (users : List Str) (h' : LjHook) : Prop where
  nodup : h'.friendof.Nodup
  friendof : ∀ u, u ∈ h'.friendof ↔ u ∈ users
  stored : ∃ (added : List (Str × Str)) (removed : List Str),
    h'.stored = h.stored ++ added.map (LjHook.addedText server) ++
      removed.map (LjHook.removedText server) ∧
    (added.map Prod.fst).Nodup ∧
    (∀ u, u ∈ added.map Prod.fst ↔ h.friendof ≠ [] ∧ u ∈ users ∧ u ∉ h.friendof) ∧
    removed.Nodup ∧ ∀ u, u ∈ removed ↔ u ∈ h.friendof ∧ u ∉ users

section Users

variable {m : Params} {u : Str}

theorem find?_foldl_keys {α : Type*} (key val : α → Str) (ks : List α) :
    (ks.foldl (fun (m : Params) k => m.set (key k) (val k)) m).find? u ≠ none ↔
      (∃ k ∈ ks, key k = u) ∨ m.find? u ≠ none := by
  induction ks generalizing m with
  | nil => simp
  | cons k ks ih =>
    rw [List.foldl_cons, ih]
    by_cases hk : key k = u
    · rw [← hk, OrderedMap.find?_set_self]
      simp
    · rw [OrderedMap.find?_set_other _ _ (same_strLt_false hk)]
      simp [hk]

theorem find?_nfriendof {rusconv : Str → Str} {pairs : List (Str × Str)} {content : Str}
    {users : List Str} (hresp : Response pairs content) (hf : FriendsResponse pairs users) :
    (LjHook.nfriendof rusconv (parameters content)).find? u ≠ none ↔ u ∈ users := by
  obtain ⟨v, hv, hcount⟩ := hf.count
  rw [LjHook.nfriendof]
  dsimp only
  rw [get_parameters hresp hv, hcount, Int.toNat_natCast, find?_foldl_keys]
  rw [OrderedMap.find?_empty, or_iff_left (not_not.mpr rfl), List.mem_iff_getElem?]
  constructor
  · intro ⟨k, hk, hu⟩
    have hlt : k < users.length := List.mem_range.mp hk
    have hget : users[k]? = some users[k] := List.getElem?_eq_getElem hlt
    rw [get_parameters hresp (hf.user k _ hget)] at hu
    exact ⟨k, by rw [hget, hu]⟩
  · intro ⟨k, hk⟩
    refine ⟨k, List.mem_range.mpr (List.getElem?_eq_some_iff.mp hk).1, ?_⟩
    exact get_parameters hresp (hf.user k u hk)

theorem mem_keys : u ∈ m.entries.map Prod.fst ↔ m.find? u ≠ none := by
  rw [Option.ne_none_iff_exists', List.mem_map]
  constructor
  · intro ⟨⟨k, v⟩, he, hk⟩
    obtain rfl : k = u := hk
    exact ⟨v, (OrderedMap.mem_entries_iff same_strLt.mp m k v).mp he⟩
  · intro ⟨v, hv⟩
    exact ⟨(u, v), (OrderedMap.mem_entries_iff same_strLt.mp m u v).mpr hv, rfl⟩

theorem nodup_keys (m : Params) : (m.entries.map Prod.fst).Nodup := by
  rw [List.Nodup, List.pairwise_map]
  refine m.sorted.imp fun {a b} hab heq => ?_
  have hirrefl : strLt b.1 b.1 = false := StrictWeak.irrefl b.1
  rw [heq, hirrefl] at hab
  cases hab

end Users

section Loops

variable {server : Str} {h : LjHook}

def newUsers (lst : List Str) (users : List (Str × Str)) : List (Str × Str) :=
  users.filter (·.1 ∉ lst)

theorem newUsers_append {lst : List Str} {users : List (Str × Str)} {u : Str}
    (h : u ∉ users.map Prod.fst) : newUsers (lst ++ [u]) users = newUsers lst users := by
  refine List.filter_congr fun user huser => ?_
  have hne : user.1 ≠ u := fun he => h (he ▸ List.mem_map_of_mem huser)
  simp [hne]

theorem addLoop_eq (foempty : Bool) (users : List (Str × Str))
    (hnodup : (users.map Prod.fst).Nodup) :
    LjHook.addLoop server foempty h users =
      { h with
        friendof := h.friendof ++ (newUsers h.friendof users).map Prod.fst
        stored := h.stored ++
          if foempty then [] else (newUsers h.friendof users).map (LjHook.addedText server) } := by
  induction users generalizing h with
  | nil => simp [LjHook.addLoop, newUsers]
  | cons user users ih =>
    rw [List.map_cons, List.nodup_cons] at hnodup
    have hfold : LjHook.addLoop server foempty h (user :: users) = LjHook.addLoop server foempty
        (if user.1 ∈ h.friendof then h
        else
          { h with
            friendof := h.friendof ++ [user.1]
            stored := h.stored ++ if foempty then [] else [LjHook.addedText server user] }) users :=
      rfl
    rw [hfold, ih hnodup.2]
    by_cases hmem : user.1 ∈ h.friendof
    · have hskip : newUsers h.friendof (user :: users) = newUsers h.friendof users := by
        rw [newUsers, List.filter_cons_of_neg (by simpa using hmem), newUsers]
      rw [if_pos hmem, hskip]
    · have htake : newUsers h.friendof (user :: users) = user :: newUsers h.friendof users := by
        rw [newUsers, List.filter_cons_of_pos (by simpa using hmem), newUsers]
      rw [if_neg hmem, htake]
      dsimp only
      rw [newUsers_append hnodup.1, List.append_assoc, List.append_assoc]
      cases foempty with
      | true => rfl
      | false => rfl

/-- A list from which those who are gone are erased, with a notification for each. -/
def settled (server : Str) (users : Params) (h : LjHook) : LjHook :=
  { h with
    friendof := h.friendof.filter fun u => users.find? u ≠ none
    stored := h.stored ++
      (h.friendof.filter fun u => users.find? u = none).map (LjHook.removedText server) }

theorem settled_all {users : Params} (hall : ∀ u ∈ h.friendof, users.find? u ≠ none) :
    settled server users h = h := by
  have hkeep : h.friendof.filter (fun u => users.find? u ≠ none) = h.friendof :=
    List.filter_eq_self.mpr fun u hu => decide_eq_true (hall u hu)
  have hgone : h.friendof.filter (fun u => users.find? u = none) = [] :=
    List.filter_eq_nil_iff.mpr fun u hu => by simpa using hall u hu
  rw [settled, hkeep, hgone]
  simp

theorem settled_erase {users : Params} {pre rest : List Str} {user : Str}
    (hlist : h.friendof = pre ++ user :: rest) (hpre : ∀ u ∈ pre, users.find? u ≠ none)
    (huser : users.find? user = none) :
    settled server users
      { h with
        friendof := pre ++ rest
        stored := h.stored ++ [LjHook.removedText server user] } = settled server users h := by
  have hgone : pre.filter (fun u => users.find? u = none) = [] :=
    List.filter_eq_nil_iff.mpr fun u hu => by simpa using hpre u hu
  rw [settled, settled, hlist]
  simp only [List.filter_append, hgone, List.nil_append]
  rw [List.filter_cons_of_neg (by simp [huser]), List.filter_cons_of_pos (by simp [huser])]
  simp

/-- The loop of removals from a place on in front of which everybody stays. -/
theorem removeLoop_from (server : Str) (users : Params) (h : LjHook) (pre rest : List Str)
    (hlist : h.friendof = pre ++ rest) (hpre : ∀ u ∈ pre, users.find? u ≠ none) :
    ∃ n, LjHook.removeLoop server users n pre.length h = some (settled server users h) := by
  induction hb : (rest.countP fun u => users.find? u = none) using Nat.strong_induction_on
    generalizing h pre rest with
  | _ b ih =>
    induction rest generalizing pre with
    | nil =>
      rw [List.append_nil] at hlist
      refine ⟨1, ?_⟩
      rw [LjHook.removeLoop, hlist, List.getElem?_eq_none le_rfl, settled_all (hlist ▸ hpre)]
    | cons user rest ihrest =>
      have hget : h.friendof[pre.length]? = some user := by
        rw [hlist]
        simp
      by_cases huser : users.find? user = none
      · have herase : h.friendof.eraseIdx pre.length = pre ++ rest := by
          rw [hlist, List.eraseIdx_append_of_length_le le_rfl, Nat.sub_self, List.eraseIdx_cons_zero]
        have hnone : pre.countP (fun u => users.find? u = none) = 0 :=
          List.countP_eq_zero.mpr fun u hu => by simpa using hpre u hu
        have hless : (pre ++ rest).countP (fun u => users.find? u = none) < b := by
          rw [List.countP_cons_of_pos (by simp [huser])] at hb
          rw [List.countP_append]
          omega
        obtain ⟨n, hn⟩ := ih _ hless
          { h with
            friendof := pre ++ rest
            stored := h.stored ++ [LjHook.removedText server user] }
          [] (pre ++ rest) rfl (by simp) rfl
        refine ⟨n + 1, ?_⟩
        rw [LjHook.removeLoop, hget]
        dsimp only
        rw [if_pos huser, herase]
        rw [settled_erase hlist hpre huser] at hn
        exact hn
      · rw [List.countP_cons_of_neg (by simp [huser])] at hb
        obtain ⟨n, hn⟩ := ihrest (pre ++ [user]) (by rw [hlist]; simp) (by
          intro u hu
          obtain hu | hu := List.mem_append.mp hu
          · exact hpre u hu
          · rw [List.mem_singleton.mp hu]
            exact huser) hb
        rw [List.length_append, List.length_singleton] at hn
        refine ⟨n + 1, ?_⟩
        rw [LjHook.removeLoop, hget]
        dsimp only
        rw [if_neg huser]
        exact hn

end Loops

theorem getfriends_eq (rusconv : Str → Str) (server : Str) (h : LjHook) (params : Params)
    (hok : params.get (bytes "success") = bytes "OK") :
    ∃ n h', h.getfriends rusconv server n params = some h' ∧
      let users := LjHook.nfriendof rusconv params
      let added := newUsers h.friendof users.entries
      h'.friendof = (h.friendof ++ added.map Prod.fst).filter (fun u => users.find? u ≠ none) ∧
        h'.stored = h.stored ++
          (if h.friendof = [] then [] else added.map (LjHook.addedText server)) ++
          (h.friendof.filter fun u => users.find? u = none).map (LjHook.removedText server) := by
  set users := LjHook.nfriendof rusconv params with husers
  have hadd : LjHook.addLoop server (h.friendof == []) h users.entries = _ :=
    addLoop_eq (h.friendof == []) users.entries (nodup_keys users)
  obtain ⟨n, hn⟩ := removeLoop_from server users
    (LjHook.addLoop server (h.friendof == []) h users.entries) [] _ rfl (by simp)
  have hstay : ((newUsers h.friendof users.entries).map Prod.fst).filter
      (fun u => users.find? u = none) = [] := by
    refine List.filter_eq_nil_iff.mpr fun u hu => ?_
    have hkey : u ∈ users.entries.map Prod.fst := (List.filter_sublist.map Prod.fst).subset hu
    simpa using mem_keys.mp hkey
  have hloop : LjHook.removeLoop server users n 0
      (LjHook.addLoop server (h.friendof == []) h users.entries) = _ := hn
  set t := settled server users (LjHook.addLoop server (h.friendof == []) h users.entries) with ht
  refine ⟨n, { t with zip := t.zip.map fun _ => t.friendof.flatMap (· ++ [blank]) }, ?_, ?_, ?_⟩
  · rw [LjHook.getfriends, if_pos hok]
    dsimp only
    rw [← husers, hloop]
    rfl
  · change t.friendof = _
    rw [ht, settled, hadd]
  · change t.stored = _
    rw [ht, settled, hadd]
    dsimp only
    rw [List.filter_append, hstay, List.append_nil]
    by_cases hempty : h.friendof = []
    · simp [hempty]
    · simp [hempty]

def friendsPairs : List (Str × Str) :=
  [(bytes "success", bytes "OK"), (bytes "friendof_count", bytes "1"),
    (bytes "friendof_1_user", bytes "al")]

end CenterIM.FriendOf
