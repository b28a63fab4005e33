import CenterIM.ContactDirectory
import CenterIM.LineStream

/-!
# The setting of the HTTP proxy

The line of the configuration in which `icqconf::save` puts the four parts of the proxy
together, and `icqconf::sethttpproxyhost`, which takes them apart at the next load. A password
with an at sign is cut there, and blanks before the user are lost.
-/
namespace CenterIM.ProxySetting
open ByteText Decimal StrText LineStream ContactDirectory

abbrev colon : Byte := 58
abbrev atSign : Byte := 64

/-- The members of `icqconf` for the proxy. -/
structure Proxy where
  httpproxyhost : Str := []
  httpproxyport : UInt16 := 0
  httpproxyuser : Str := []
  httpproxypasswd : Str := []
  deriving DecidableEq

/-- `s.substr(pos, n)`, with a negative number of characters as a very large one. -/
def substr (s : Str) (pos : ℕ) (n : ℤ) : Str :=
  if n < 0 then s.drop pos else (s.drop pos).take n.toNat

/-- `icqconf::sethttpproxyhost`. -/
def sethttpproxyhost (ahttpproxyhost : Str) : Proxy :=
  if ahttpproxyhost = [] then {}
  else
    match find [colon] ahttpproxyhost with
    | some pos =>
      match find [atSign] ahttpproxyhost with
      | some posn =>
        let proxy : Proxy :=
          { httpproxyuser := ahttpproxyhost.take pos
            httpproxypasswd := substr ahttpproxyhost (pos + 1) ((posn : ℤ) - pos - 1) }
        match (find [colon] (ahttpproxyhost.drop posn)).map (· + posn) with
        | some pos =>
          { proxy with
            httpproxyhost := substr ahttpproxyhost (posn + 1) ((pos : ℤ) - posn - 1)
            httpproxyport := (atol (ahttpproxyhost.drop (pos + 1))).toUInt16 }
        | none => proxy
      | none =>
        { httpproxyhost := ahttpproxyhost.take pos
          httpproxyport := (atol (ahttpproxyhost.drop (pos + 1))).toUInt16 }
    | none => { httpproxyhost := ahttpproxyhost, httpproxyport := 8080 }

/-- `icqconf::gethttpproxyport`. -/
def gethttpproxyport (p : Proxy) : ℕ := if p.httpproxyport ≠ 0 then p.httpproxyport.toNat else 8080

def httpProxy : Str := bytes "http_proxy"

/-- The line that `icqconf::save` writes, without its newline. -/
def proxyLine (p : Proxy) : Option Str :=
  let server := p.httpproxyhost ++ [colon] ++ decimal (gethttpproxyport p)
  if p.httpproxyhost = [] then none
  else if p.httpproxyuser = [] then some (httpProxy ++ [tab] ++ server)
  else some (httpProxy ++ [tab] ++ p.httpproxyuser ++ [colon] ++ p.httpproxypasswd ++ [atSign] ++ server)

/-- What the loop of `icqconf::loadmainconfig` makes of the next line, if it is about the proxy. -/
def readProxy (f : IStream) : Option Proxy :=
  let buf := (getstring f []).2.1
  let (param, buf) := getword buf wordDelim
  if param = httpProxy then some (sethttpproxyhost buf) else none

def Simple (s : Str) : Prop := s ≠ [] ∧ colon ∉ s ∧ atSign ∉ s ∧ lf ∉ s

instance (s : Str) : Decidable (Simple s) := inferInstanceAs (Decidable (_ ∧ _))

structure Setting where
  user : Str
  passwd : Str
  host : Str
  port : UInt16
  user_simple : Simple user
  host_simple : Simple host
  passwd_line : lf ∉ passwd
  port_pos : port ≠ 0

def Setting.proxy (x : Setting) : Proxy := ⟨x.host, x.port, x.user, x.passwd⟩

variable {u a t host : Str}

theorem substr_take (s v : Str) (c : Byte) (w : Str) {n : ℤ} (hn : n = v.length) :
    substr (s ++ c :: (v ++ w)) (s.length + 1) n = v := by
  have hdrop : (s ++ c :: (v ++ w)).drop (s.length + 1) = v ++ w := by simp
  rw [substr, if_neg (by omega), hdrop, hn, Int.toNat_natCast, List.take_left]

/-- User and password end at the first separators; the rest is read behind the at sign. -/
theorem sethttpproxyhost_eq (hu : colon ∉ u) (hua : atSign ∉ u) (ha : atSign ∉ a) (t : Str) :
    sethttpproxyhost (u ++ colon :: (a ++ atSign :: t)) =
      match find [colon] t with
      | some k => ⟨t.take k, (atol (t.drop (k + 1))).toUInt16, u, a⟩
      | none => ⟨[], 0, u, a⟩ := by
  let s := u ++ colon :: (a ++ atSign :: t)
  have hs : s = (u ++ colon :: a) ++ atSign :: t := by simp [s]
  have hpos : find [colon] s = some u.length := find_char hu
  have hposn : find [atSign] s = some (u ++ colon :: a).length := by
    rw [hs]
    apply find_char
    have hne : atSign ≠ colon := by decide
    simp [hua, ha, hne]
  have hdrop : s.drop (u ++ colon :: a).length = atSign :: t := by rw [hs, List.drop_left]
  have hlen : (u ++ colon :: a).length = u.length + 1 + a.length := by
    rw [List.length_append, List.length_cons]
    omega
  have hne : s ≠ [] := by simp [s]
  have huser : s.take u.length = u := List.take_left
  have hpasswd : substr s (u.length + 1) (((u ++ colon :: a).length : ℤ) - u.length - 1) = a := by
    apply substr_take u a colon (atSign :: t)
    rw [hlen]
    push_cast
    ring
  have hcolon : find [colon] (atSign :: t) = (find [colon] t).map (· + 1) := by
    have hne : (colon == atSign) = false := by decide
    rw [find, if_neg (by simp [List.isPrefixOf, hne])]
  change sethttpproxyhost s = _
  rw [sethttpproxyhost, if_neg hne]
  simp only [hpos, hposn, hdrop, hcolon, huser, hpasswd, Option.map_map]
  cases h : find [colon] t with
  | none => rfl
  | some k =>
    obtain ⟨v, hv, hk⟩ := find_some h
    have hhost : substr s ((u ++ colon :: a).length + 1)
        (((k + 1 + (u ++ colon :: a).length : ℕ) : ℤ) - (u ++ colon :: a).length - 1) = t.take k := by
      have htake : t = t.take k ++ ([colon] ++ v) := hv
      have hcut := @substr_take (u ++ colon :: a) (t.take k) atSign ([colon] ++ v)
        (((k + 1 + (u ++ colon :: a).length : ℕ) : ℤ) - (u ++ colon :: a).length - 1)
        (by rw [List.length_take_of_le hk]; push_cast; ring)
      rwa [← htake, ← hs] at hcut
    have hport : s.drop (k + 1 + (u ++ colon :: a).length + 1) = t.drop (k + 1) := by
      have hsum : k + 1 + (u ++ colon :: a).length + 1 = (u ++ colon :: a).length + (k + 2) := by
        omega
      rw [hsum, ← List.drop_drop, hdrop]
      rfl
    simp only [Option.map_some, Function.comp_apply, hhost, hport]

theorem atol_port (port : UInt16) : (atol (decimal port.toNat)).toUInt16 = port := by
  have hlt := port.toNat_lt
  rw [← decimalInt_natCast, atol_decimalInt (by omega) (by omega), Int64.ofInt_eq_ofNat,
    Int64.toUInt64_ofNat']
  apply UInt16.toNat_inj.mp
  rw [UInt64.toNat_toUInt16, UInt64.toNat_ofNat']
  omega

theorem sethttpproxyhost_all (hu : colon ∉ u) (hua : atSign ∉ u) (ha : atSign ∉ a)
    (hh : colon ∉ host) (port : UInt16) :
    sethttpproxyhost (u ++ colon :: (a ++ atSign :: (host ++ colon :: decimal port.toNat))) =
      ⟨host, port, u, a⟩ := by
  have hdrop : (host ++ colon :: decimal port.toNat).drop (host.length + 1) =
      decimal port.toNat := by simp
  rw [sethttpproxyhost_eq hu hua ha, find_char hh]
  simp only [List.take_left, hdrop, atol_port]

/-- What stands behind the first word of the line. -/
def value (x : Setting) : Str :=
  x.user ++ colon :: (x.passwd ++ atSign :: (x.host ++ colon :: decimal x.port.toNat))

theorem proxyLine_eq (x : Setting) : proxyLine x.proxy = some (httpProxy ++ tab :: value x) := by
  have hport : gethttpproxyport x.proxy = x.port.toNat := if_pos x.port_pos
  have hhost : x.proxy.httpproxyhost ≠ [] := x.host_simple.1
  have huser : x.proxy.httpproxyuser ≠ [] := x.user_simple.1
  simp only [proxyLine, if_neg hhost, if_neg huser, hport]
  simp [Setting.proxy, value]

theorem getword_value (x : Setting) :
    getword (httpProxy ++ tab :: value x) wordDelim = (httpProxy, leadcut (value x) wordDelim) := by
  have hword : httpProxy.all (inWord wordDelim) = true := by decide
  exact getword_word (List.all_eq_true.mp hword) (by decide) (by decide)

theorem leadcut_value (x : Setting) : leadcut (value x) wordDelim =
    leadcut x.user wordDelim ++
      colon :: (x.passwd ++ atSign :: (x.host ++ colon :: decimal x.port.toNat)) := by
  have hcolon : colon ∉ wordDelim := by decide
  rw [value]
  induction x.user with
  | nil => exact List.dropWhile_cons_of_neg (by simpa using hcolon)
  | cons c u ih =>
    by_cases hc : c ∈ wordDelim
    · have hcut : ∀ s, leadcut (c :: s) wordDelim = leadcut s wordDelim := fun s =>
        List.dropWhile_cons_of_pos (by simpa using hc)
      rw [List.cons_append, hcut, hcut, ih]
    · have hcut : ∀ s, leadcut (c :: s) wordDelim = c :: s := fun s =>
        List.dropWhile_cons_of_neg (by simpa using hc)
      rw [List.cons_append, hcut, hcut, List.cons_append]

theorem value_line (x : Setting) : lf ∉ httpProxy ++ tab :: value x := by
  have hword : lf ∉ httpProxy ++ [tab] := by decide
  have hdecimal : lf ∉ decimal x.port.toNat := by
    intro h
    exact absurd (isdigit_of_mem_decimal h) (by decide)
  have hsep : lf ≠ colon ∧ lf ≠ atSign := by decide
  simp only [List.mem_append, List.mem_singleton, not_or] at hword
  simp [value, hword, hdecimal, hsep, x.user_simple.2.2.2, x.host_simple.2.2.2, x.passwd_line]

theorem readProxy_plain {x : Setting} (hnul : nul ∉ httpProxy ++ tab :: value x) (rest : Str) :
    readProxy ⟨httpProxy ++ tab :: value x ++ lf :: rest, false⟩ =
      some (sethttpproxyhost (leadcut (value x) wordDelim)) := by
  rw [readProxy, getstring_line ⟨value_line x, hnul⟩]
  simp only [getword_value, if_true]

theorem sethttpproxyhost_nul {s : Str} (h : nul ∉ s) :
    nul ∉ (sethttpproxyhost s).httpproxyuser ∧ nul ∉ (sethttpproxyhost s).httpproxypasswd ∧
      nul ∉ (sethttpproxyhost s).httpproxyhost := by
  have hdrop : ∀ n, nul ∉ s.drop n := fun n hm => h (List.mem_of_mem_drop hm)
  have htake : ∀ n, nul ∉ s.take n := fun n hm => h (List.mem_of_mem_take hm)
  have hsub : ∀ n m, nul ∉ substr s n m := by
    intro n m
    rw [substr]
    split_ifs
    · exact hdrop n
    · exact fun hm => hdrop n (List.mem_of_mem_take hm)
  rw [sethttpproxyhost]
  split_ifs
  · simp
  · cases find [colon] s with
    | none => simp [h]
    | some pos =>
      cases find [atSign] s with
      | none => simp [htake]
      | some posn =>
        cases hk : (find [colon] (s.drop posn)).map (· + posn) with
        | none => simp only [hk]; exact ⟨htake pos, hsub _ _, List.not_mem_nil⟩
        | some k => simp only [hk]; exact ⟨htake pos, hsub _ _, hsub _ _⟩

/-- Cutting off blanks leaves a text as it is only if it does not begin with one. -/
theorem leadcut_eq_iff (s : Str) :
    leadcut s wordDelim = s ↔ s.head?.all (· ∉ wordDelim) = true := by
  cases s with
  | nil => exact iff_of_true rfl rfl
  | cons c s =>
    by_cases hc : c ∈ wordDelim
    · have hcut : leadcut (c :: s) wordDelim = leadcut s wordDelim :=
        List.dropWhile_cons_of_pos (by simpa using hc)
      have hshort : (leadcut s wordDelim).length ≤ s.length := (List.dropWhile_suffix _).length_le
      have hne : leadcut (c :: s) wordDelim ≠ c :: s := by
        intro he
        have hlen := congrArg List.length (hcut.symm.trans he)
        rw [List.length_cons] at hlen
        omega
      exact iff_of_false hne (by simp [hc])
    · have hcut : leadcut (c :: s) wordDelim = c :: s :=
        List.dropWhile_cons_of_neg (by simpa using hc)
      exact iff_of_true hcut (by simp [hc])

/-- A setting without NUL is read back exactly if the password has no at sign and the user
begins with no blank. -/
theorem sethttpproxyhost_iff (x : Setting) :
    sethttpproxyhost (leadcut (value x) wordDelim) = x.proxy ↔
      atSign ∉ x.passwd ∧ x.user.head?.all (· ∉ wordDelim) = true := by
  have hcolon : colon ∉ leadcut x.user wordDelim := fun hm =>
    x.user_simple.2.1 (leadcut_subset _ _ hm)
  have hat : atSign ∉ leadcut x.user wordDelim := fun hm =>
    x.user_simple.2.2.1 (leadcut_subset _ _ hm)
  rw [leadcut_value, ← leadcut_eq_iff]
  by_cases hp : atSign ∈ x.passwd
  · -- the password ends at its first at sign
    obtain ⟨a, b, hab, ha⟩ := List.eq_append_cons_of_mem hp
    have hcut : ∃ host port, sethttpproxyhost (leadcut x.user wordDelim ++
        colon :: (x.passwd ++ atSign :: (x.host ++ colon :: decimal x.port.toNat))) =
          ⟨host, port, leadcut x.user wordDelim, a⟩ := by
      rw [hab, List.append_assoc, List.cons_append, sethttpproxyhost_eq hcolon hat ha]
      split
      · exact ⟨_, _, rfl⟩
      · exact ⟨_, _, rfl⟩
    obtain ⟨host, port, hcut⟩ := hcut
    refine iff_of_false ?_ fun h => h.1 hp
    intro h
    have hpasswd : a = x.passwd := congrArg Proxy.httpproxypasswd (hcut.symm.trans h)
    rw [hab] at hpasswd
    simpa using congrArg List.length hpasswd
  · rw [sethttpproxyhost_all hcolon hat hp x.host_simple.2.1]
    constructor
    · intro h
      exact ⟨hp, congrArg Proxy.httpproxyuser h⟩
    · rintro ⟨-, hu⟩
      rw [hu]
      rfl

/-- The setting is read back exactly if the password has no at sign, the user begins with no
blank, and nothing has a NUL. -/
theorem readProxy_iff (x : Setting) (rest : Str) :
    (∃ line, proxyLine x.proxy = some line ∧ readProxy ⟨line ++ lf :: rest, false⟩ = some x.proxy) ↔
      atSign ∉ x.passwd ∧ x.user.head?.all (· ∉ wordDelim) = true ∧
        nul ∉ x.user ++ x.passwd ++ x.host := by
  have hword : nul ∉ httpProxy ++ [tab] := by decide
  have hdecimal : nul ∉ decimal x.port.toNat := by
    intro h
    exact absurd (isdigit_of_mem_decimal h) (by decide)
  have hsep : nul ≠ colon ∧ nul ≠ atSign := by decide
  have hnul : nul ∈ httpProxy ++ tab :: value x ↔ nul ∈ x.user ++ x.passwd ++ x.host := by
    simp only [List.mem_append, List.mem_singleton, not_or] at hword
    simp [value, hword, hdecimal, hsep]
  rw [← hnul, ← and_assoc, ← sethttpproxyhost_iff, proxyLine_eq]
  constructor
  · rintro ⟨line, hline, hread⟩
    obtain rfl := Option.some.inj hline
    by_cases hn : nul ∈ httpProxy ++ tab :: value x
    · -- what is read has no NUL, so it is not what was written
      let buf := (getstring ⟨httpProxy ++ tab :: value x ++ lf :: rest, false⟩ []).2.1
      have hbuf : nul ∉ (getword buf wordDelim).2 :=
        (getword_kept (getstring_nul List.not_mem_nil)).1
      have hproxy : sethttpproxyhost (getword buf wordDelim).2 = x.proxy := by
        simp only [readProxy] at hread
        split_ifs at hread
        exact Option.some.inj hread
      have hall := sethttpproxyhost_nul hbuf
      rw [hproxy] at hall
      rw [hnul] at hn
      simp only [List.mem_append] at hn
      rcases hn with (hn | hn) | hn
      · exact absurd hn hall.1
      · exact absurd hn hall.2.1
      · exact absurd hn hall.2.2
    · rw [readProxy_plain hn rest] at hread
      exact ⟨Option.some.inj hread, hn⟩
  · rintro ⟨hproxy, hn⟩
    exact ⟨_, rfl, by rw [readProxy_plain hn rest, hproxy]⟩

/-- A password with an at sign, for a user and a host without separators. -/
def withAt : Setting where
  user := bytes "me"
  passwd := bytes "p@q"
  host := bytes "proxy"
  port := 3128
  user_simple := by decide
  host_simple := by decide
  passwd_line := by decide
  port_pos := by decide

/-- The password is cut, and the rest of it goes to the host. -/
theorem withAt_cut : proxyLine withAt.proxy = some (bytes "http_proxy\tme:p@q@proxy:3128") ∧
    readProxy ⟨bytes "http_proxy\tme:p@q@proxy:3128" ++ [lf], false⟩ =
      some ⟨bytes "q@proxy", 3128, bytes "me", bytes "p"⟩ := by
  decide +kernel

end CenterIM.ProxySetting
