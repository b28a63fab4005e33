import CenterIM.RssFeed
import CenterIM.XmlReach

/-!
# Hostile feed documents

What a server sends is taken apart without a fault when its XML declaration can be read as a leaf
and no `CDATA` section that the parser comes to is without text after it.
-/
namespace CenterIM.FeedSafety
open ByteText Decimal StrText XmlTree RssFeed XmlReach

/-- The declaration as an element of the name `x`. -/
def declaration (b : Str) : Str := bytes "<x " ++ b ++ bytes "/>"

/-- The first angle bracket in a text opens the tag `</x>`. -/
def ClosesX (s : Str) : Prop := ∃ t, s.dropWhile (· ≠ langle) = bytes "</x>" ++ t

/-- The declaration is one tag, or one that is closed by the next tag. -/
def Readable (b : Str) : Prop :=
  match b.dropWhile (· ≠ rangle) with
  | [] => True
  | _ :: w =>
    (b.takeWhile (· ≠ rangle)).getLast? = some slash ∨
      ClosesX (cdataOf (skipWS (w ++ bytes "/>"))).2

/-- There is a character behind `<?xml`, and what is between it and `?>` is readable. -/
def Declared (content : Str) : Prop :=
  ∀ k, find (bytes "<?xml") content = some k → k + 6 ≤ content.length ∧
    ∀ j, find (bytes "?>") (content.drop (k + 6)) = some j →
      Readable ((content.drop (k + 6)).take j)

def IsLeaf : Except Fault (Option XmlNode × Str) → Prop
  | .ok (some (.leaf ..), _) => True
  | _ => False

section Declaration

variable {s tag : Str} {fuel : ℕ}

theorem closing_bytes : bytes "</x>" = langle :: [slash, 120] ++ [rangle] := by decide

theorem openTag_x {u : Str} (h : rangle ∉ u) (n : ℕ) (s : Str) :
    openTag (n + 1) (langle :: (bytes "x " ++ u) ++ rangle :: s) = (some (bytes "x " ++ u), s) := by
  have hr : rangle ∉ bytes "x " ++ u := by
    intro hm
    rcases List.mem_append.mp hm with hx | hu
    · exact absurd hx (by decide)
    · exact h hu
  have hhead : (bytes "x " ++ u).head? = some 120 := rfl
  have hopen : (langle :: (bytes "x " ++ u) ++ rangle :: s).head? = some langle := rfl
  have hne : bytes "x " ++ u ≠ [] := List.append_ne_nil_of_left_ne_nil (by decide) u
  rw [openTag, List.cons_append, skipWS_langle, ← List.cons_append, parseTag_cons hr]
  dsimp only
  rw [hhead, if_neg (not_not.mpr hopen), if_neg (not_or.mpr ⟨hne, by decide⟩), if_neg (by decide)]

/-- The tag `</x>` is the only one that closes `x`. -/
theorem closes_x_iff (s : Str) :
    ((parseTag s).1.head? = some slash ∧ closes (parseTag s).1 (bytes "x") = true) ↔
      ∃ t, s = bytes "</x>" ++ t := by
  constructor
  · intro ⟨hslash, hcloses⟩
    have hne : (parseTag s).1 ≠ [] := fun h => by
      rw [h] at hslash
      cases hslash
    have htag : (parseTag s).1 = [slash, 120] := by
      generalize (parseTag s).1 = nexttag at hslash hcloses
      rw [closes, Bool.and_eq_true, beq_iff_eq, beq_iff_eq] at hcloses
      obtain ⟨c, d, rfl⟩ := List.length_eq_two.mp hcloses.1
      obtain ⟨t, ht, -⟩ := find_some hcloses.2
      obtain rfl := Option.some.inj hslash
      obtain rfl := (List.cons.inj ht).1
      rfl
    refine ⟨(parseTag s).2, ?_⟩
    have heq := parseTag_eq hne
    rw [htag] at heq
    rw [closing_bytes, List.append_assoc]
    exact heq
  · rintro ⟨t, rfl⟩
    have htag : parseTag (bytes "</x>" ++ t) = ([slash, 120], t) := by
      rw [closing_bytes, List.append_assoc]
      exact parseTag_cons (by decide) t
    have hcloses : closes [slash, 120] (bytes "x") = true := by decide
    rw [htag]
    exact ⟨rfl, hcloses⟩

theorem parseText_leaf_iff (h : nameOf tag = bytes "x") (cdata s : Str) :
    IsLeaf (parseText tag cdata s) ↔ ClosesX s := by
  rw [parseText, ClosesX]
  cases hr : s.dropWhile (· ≠ langle) with
  | nil =>
    refine iff_of_false id fun h => ?_
    obtain ⟨t, ht⟩ := h
    rw [closing_bytes] at ht
    cases ht
  | cons c u =>
    rw [← closes_x_iff, h]
    dsimp only
    by_cases hs : (parseTag (c :: u)).1.head? = some slash
    · rw [if_neg (not_not.mpr hs), and_iff_right hs]
      by_cases hc : closes (parseTag (c :: u)).1 (bytes "x") = true
      · rw [if_pos hc]
        exact iff_of_true trivial hc
      · rw [if_neg hc]
        exact iff_of_false id hc
    · rw [if_pos hs]
      exact iff_of_false id fun h => hs h.1

theorem parseChildren_not_leaf (fuel : ℕ) (tag name s : Str) (children : List XmlNode) :
    ¬ IsLeaf (parseChildren fuel tag name (some children) s) := by
  induction fuel generalizing s children with
  | zero => exact id
  | succ fuel ih =>
    by_cases htag : (parseTag s).1 = [] ∨ (parseTag s).1.head? = some slash
    · rw [parseChildren]
      dsimp only
      split_ifs
      · exact id
      · exact id
      · exact id
      · exact absurd htag (not_or.mpr ⟨‹_›, ‹_›⟩)
    · rw [parseChildren_node htag]
      cases parse fuel s with
      | error e => exact id
      | ok r =>
        dsimp only
        split_ifs
        · exact id
        · exact ih _ _

theorem parseChildren_leaf_iff {name : Str} (h : name = bytes "x") (s : Str) :
    IsLeaf (parseChildren (fuel + 1) tag name none s) ↔ ∃ t, s = bytes "</x>" ++ t := by
  rw [← closes_x_iff, ← h]
  by_cases htag : (parseTag s).1 = [] ∨ (parseTag s).1.head? = some slash
  · rw [parseChildren]
    dsimp only
    by_cases hnil : (parseTag s).1 = []
    · rw [if_pos hnil]
      refine iff_of_false id fun h => ?_
      rw [hnil] at h
      cases h.1
    · have hs := htag.resolve_left hnil
      rw [if_neg hnil, if_pos hs, and_iff_right hs]
      split_ifs with hc
      · exact iff_of_true trivial hc
      · exact iff_of_false id hc
  · rw [parseChildren_node htag]
    refine iff_of_false ?_ fun h => htag (Or.inr h.1)
    cases parse fuel s with
    | error e => exact id
    | ok r =>
      dsimp only
      split_ifs
      · exact id
      · exact parseChildren_not_leaf _ _ _ _ _

theorem closesX_of_head {u : Str} : ClosesX (langle :: u) ↔ ∃ t, langle :: u = bytes "</x>" ++ t := by
  rw [ClosesX, List.dropWhile_cons_of_neg (by decide)]

/-- An element that is open is read as a leaf when the next tag closes it. -/
theorem parse_open_leaf_iff {u : Str} (h : rangle ∉ u) (hs : u.getLast? ≠ some slash) {w : Str}
    (hw : skipWS w ≠ []) :
    IsLeaf (parse (fuel + 2) (langle :: (bytes "x " ++ u) ++ rangle :: w)) ↔
      ClosesX (cdataOf (skipWS w)).2 := by
  have hlast : (bytes "x " ++ u).getLast? ≠ some slash := by
    rw [List.getLast?_append]
    intro he
    rcases Option.or_eq_some_iff.mp he with hu | ⟨-, hx⟩
    · exact hs hu
    · exact absurd hx (by decide)
  have hname : nameOf (bytes "x " ++ u) = bytes "x" := rfl
  rw [parse_contents (openTag_x h _ w) hlast hw]
  rcases cdataOf (skipWS w) with ⟨cdata, _ | ⟨c, v⟩⟩
  · refine iff_of_false id fun ⟨t, ht⟩ => ?_
    rw [closing_bytes] at ht
    cases ht
  · dsimp only
    by_cases hc : c = langle ∧ cdata = []
    · rw [if_pos hc, parseChildren_leaf_iff hname, hc.1, closesX_of_head]
    · rw [if_neg hc, parseText_leaf_iff hname]

/-- The declaration is read as a leaf exactly when it is readable. -/
theorem parse_declaration_iff (b : Str) :
    IsLeaf (parse ((declaration b).length + 3) (declaration b)) ↔ Readable b := by
  rw [Readable]
  have happ := List.takeWhile_append_dropWhile (p := (· ≠ rangle)) (l := b)
  have hu : rangle ∉ b.takeWhile (· ≠ rangle) := fun hm => by
    simpa using List.mem_takeWhile_imp hm
  cases hd : b.dropWhile (· ≠ rangle) with
  | nil =>
    rw [hd, List.append_nil] at happ
    have hb : rangle ∉ b ++ [slash] := by
      rw [happ] at hu
      intro hm
      rcases List.mem_append.mp hm with hm | hm
      · exact hu hm
      · exact absurd hm (by decide)
    have htext : declaration b = langle :: (bytes "x " ++ (b ++ [slash])) ++ rangle :: [] := by
      rw [declaration, show bytes "<x " = langle :: bytes "x " from rfl]
      simp [bytes]
    have hlast : (bytes "x " ++ (b ++ [slash])).getLast? = some slash := by
      rw [← List.append_assoc, List.getLast?_concat]
    rw [htext, parse_closed (openTag_x hb _ []) hlast]
    exact iff_of_true trivial trivial
  | cons c w =>
    obtain rfl : c = rangle := by
      have hnot := List.head?_dropWhile_not (· ≠ rangle) b
      rw [hd] at hnot
      simpa using hnot
    generalize b.takeWhile (· ≠ rangle) = u at happ hu
    have htext : declaration b = langle :: (bytes "x " ++ u) ++ rangle :: (w ++ bytes "/>") := by
      rw [declaration, ← happ, hd, show bytes "<x " = langle :: bytes "x " from rfl]
      simp
    have hw : skipWS (w ++ bytes "/>") ≠ [] := by
      rw [skipWS, Ne, List.dropWhile_eq_nil_iff]
      intro hall
      exact absurd (hall slash (List.mem_append_right _ (by decide))) (by decide)
    by_cases hs : u.getLast? = some slash
    · have hlast : (bytes "x " ++ u).getLast? = some slash := by
        rw [List.getLast?_append, hs]
        rfl
      rw [htext, parse_closed (openTag_x hu _ _) hlast]
      exact iff_of_true trivial (Or.inl hs)
    · rw [htext, parse_open_leaf_iff hu hs hw]
      exact (or_iff_right hs).symm

end Declaration

section Document

variable (siconv : Str → Str → Str → Str) (convertto : Str)

/-- The encoding is found exactly when the declaration is in order. -/
theorem encoding_isOk_iff (content : Str) : (∃ enc, encoding content = .ok enc) ↔ Declared content := by
  rw [encoding, Declared]
  cases find (bytes "<?xml") content with
  | none => exact iff_of_true ⟨_, rfl⟩ nofun
  | some k =>
    dsimp only
    by_cases hk : content.length < k + 6
    · rw [if_pos hk]
      refine iff_of_false nofun fun h => ?_
      have := (h k rfl).1
      omega
    · rw [if_neg hk]
      simp only [Option.some.injEq, forall_eq', not_lt.mp hk, true_and]
      cases find (bytes "?>") (content.drop (k + 6)) with
      | none => exact iff_of_true ⟨_, rfl⟩ nofun
      | some j =>
        simp only [Option.some.injEq, forall_eq']
        rw [← parse_declaration_iff, declaration]
        generalize parse _ _ = r
        match r with
        | .error e => exact iff_of_false nofun id
        | .ok (none, _) => exact iff_of_false nofun id
        | .ok (some (.leaf ..), _) => exact iff_of_true ⟨_, rfl⟩ trivial
        | .ok (some (.branch ..), _) => exact iff_of_false nofun id

/-- Behind the encoding and the tree every node is looked at before it is used. -/
theorem readDocument_isOk_iff {rev : HTTPRequestEvent} (hd : rev.delivered = true)
    (hne : rev.content ≠ []) :
    (∃ d, readDocument siconv convertto rev = .ok d) ↔
      (∃ enc, encoding rev.content = .ok enc) ∧
        ∃ r, parse (rev.content.length + 3) rev.content = .ok r := by
  rw [readDocument, hd, if_neg (by simpa using hne)]
  cases encoding rev.content with
  | error e => exact iff_of_false nofun nofun
  | ok enc =>
    rw [and_iff_right ⟨enc, rfl⟩]
    cases parse (rev.content.length + 3) rev.content with
    | error e => exact iff_of_false nofun nofun
    | ok r =>
      refine iff_of_true ?_ ⟨r, rfl⟩
      obtain ⟨_ | top, rest⟩ := r
      · exact ⟨_, rfl⟩
      · dsimp only
        generalize (up (top.getTag.take 4) == bytes "FEED") = atom
        by_cases hkind : up (top.getTag.take 3) ≠ bytes "RSS" ∧ up (top.getTag.take 3) ≠ bytes "RDF" ∧
            (!atom) = true
        · rw [if_pos hkind]
          exact ⟨_, rfl⟩
        · rw [if_neg hkind]
          cases top with
          | leaf => exact ⟨_, rfl⟩
          | branch _ attributes rss =>
            dsimp only
            generalize nodes rss (if atom = true then bytes "entry" else bytes "channel") = ns
            by_cases hns : ns = []
            · rw [if_pos hns]
              exact ⟨_, rfl⟩
            · rw [if_neg hns]
              generalize (if atom = true then some rss else getBranch rss (bytes "channel")) = channel
              cases channel with
              | none => exact ⟨_, rfl⟩
              | some channel => exact ⟨_, rfl⟩

/-- A document is read without a fault exactly when it was not delivered, or its declaration is in
order and the parser comes to no `CDATA` section at the end of the text. -/
theorem readDocument_total_iff (rev : HTTPRequestEvent) :
    (∃ d, readDocument siconv convertto rev = .ok d) ↔
      (rev.delivered = true → Declared rev.content ∧ ¬ Dangles ⟨.node, 0, rev.content⟩) := by
  by_cases hd : rev.delivered = true
  · rw [forall_prop_of_true hd]
    by_cases hne : rev.content = []
    · have hread : ∃ d, readDocument siconv convertto rev = .ok d := by
        rw [readDocument, hne]
        exact ⟨_, if_pos (by simp)⟩
      have hdeclared : Declared [] := fun k hk => by cases hk
      have hdangles : ¬ Dangles ⟨.node, 0, []⟩ := by
        rw [← parse_isOk_iff (show ([] : Str).length < 1 from Nat.one_pos)]
        exact ⟨_, rfl⟩
      rw [hne]
      exact iff_of_true hread ⟨hdeclared, hdangles⟩
    · rw [readDocument_isOk_iff siconv convertto hd hne, encoding_isOk_iff, parse_isOk_iff (by omega)]
  · refine iff_of_true ?_ fun h => absurd h hd
    rw [readDocument]
    exact ⟨_, if_pos (by simp [hd])⟩

/-- The start of a declaration and nothing more. -/
theorem start_faults : ¬ ∀ (siconv : Str → Str → Str → Str) (convertto : Str)
    (rev : HTTPRequestEvent), ∃ d, readDocument siconv convertto rev = .ok d := by
  intro h
  have hfault : encoding (bytes "<?xml") = .error .outOfRange := by decide
  have hne : bytes "<?xml" ≠ [] := by decide
  obtain ⟨⟨enc, henc⟩, -⟩ := (readDocument_isOk_iff (fun s _ _ => s) [] rfl hne).mp
    (h (fun s _ _ => s) [] ⟨bytes "<?xml", [], [], true⟩)
  exact nomatch hfault.symm.trans henc

end Document

end CenterIM.FeedSafety
