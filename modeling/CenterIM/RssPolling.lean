import CenterIM.HistoryFastPath
import CenterIM.RssFeed

/-!
# Polling a feed twice

The items of a document are compared with three times as many events of the history, as they
are read back. What a first run stores is among them in the next one, and pushes out as many
events from the other end.
-/
namespace CenterIM.RssPolling
open ByteText LineStream StrText Contact Event EventReader RecordText EventFraming EventText
  HistoryFile HistoryScan HistoryFastPath RssFeed

/-- A text that is read back from the history as it was stored, but for carriage returns. -/
def ReadsBack (text : Str) : Prop :=
  nul ∉ text ∧ NoLeadingBreak text ∧ marker ∉ lines (dropCR text)

instance (text : Str) : Decidable (ReadsBack text) := by
  unfold ReadsBack NoLeadingBreak
  infer_instance

def Holds (file : Option Str) (es : List ImEvent) : Prop :=
  file = some (writeAll es) ∨ file = none ∧ es = []

theorem dropCR_dropCR (s : Str) : dropCR (dropCR s) = dropCR s := by
  simp [dropCR]

theorem lines_dropCR (s : Str) : lines (dropCR s) = (lines s).map dropCR := by
  induction s with
  | nil => rfl
  | cons c s ih =>
    by_cases hl : c = lf
    · subst hl
      rw [show dropCR (lf :: s) = lf :: dropCR s from rfl, lines_lf, lines_lf, ih]
      rfl
    · rw [lines_cons hl]
      cases hs : lines s with
      | nil => exact absurd hs (lines_ne_nil s)
      | cons l ls =>
        rw [hs] at ih
        by_cases hc : c = cr
        · subst hc
          rw [show dropCR (cr :: s) = dropCR s from rfl, ih]
          rfl
        · rw [show dropCR (c :: s) = c :: dropCR s by simp [dropCR, hc], lines_cons hl, ih]
          simp [dropCR, hc]

theorem ReadsBack.unmarked {text : Str} (h : ReadsBack text) : marker ∉ lines text := by
  intro hm
  apply h.2.2
  rw [lines_dropCR]
  exact List.mem_map.mpr ⟨marker, hm, rfl⟩

theorem ReadsBack.dropCR {text : Str} (h : ReadsBack text) : ReadsBack (dropCR text) := by
  refine ⟨fun hm => h.1 (List.mem_filter.mp hm).1, ?_, ?_⟩
  · rw [NoLeadingBreak, dropCR_dropCR]
    exact h.2.1
  · rw [dropCR_dropCR]
    exact h.2.2

theorem itemEvent_text (c : ImContact) (now : Int64) {text : Str} (h : ReadsBack text) :
    TextEvent (itemEvent c now text) text :=
  ⟨⟨by simp [itemEvent], by simp [itemEvent], by simpa [itemEvent, texts] using h.1,
    by simp [itemEvent, fieldNames]⟩, rfl, by simp [UrlLine, itemEvent], h.unmarked⟩

theorem readBack_item {c : ImContact} {now : Int64} {text : Str} (h : ReadsBack text) :
    (readBack (itemEvent c now text)).body = .immessage (norm text) := by
  have ht := itemEvent_text c now h
  rw [readBack, recordBody_text ht.field ht.url ht.unmarked, (norm_dropWhile_iff text).mpr h.2.1]
  rfl

theorem seen_congr {s t : Str} (h : dropCR s = dropCR t) (events : List ImEvent) (is : ℕ) :
    seen events is s = seen events is t := by
  rw [seen, seen, h]

theorem seen_min (events : List ImEvent) (is : ℕ) (item : Str) :
    seen events (min is events.length) item = seen events is item := by
  have htake : events.reverse.take (min is events.length) = events.reverse.take is := by
    rw [← List.length_reverse, ← List.take_eq_take_min]
  rw [seen, seen, htake]

/-- Events that are added stand in front of the others in the window. -/
theorem seen_append (events : List ImEvent) {added : List ImEvent} {is : ℕ}
    (h : added.length ≤ is) (item : Str) :
    seen (events ++ added) is item =
      (seen added added.length item || seen events (is - added.length) item) := by
  have hlen : added.reverse.length = added.length := List.length_reverse
  have htake : added.reverse.take is = added.reverse := List.take_of_length_le (by omega)
  have hself : added.reverse.take added.length = added.reverse :=
    List.take_of_length_le (by omega)
  rw [seen, List.reverse_append, List.take_append, htake, hlen, List.any_append, seen, hself, seen]

theorem seen_items {c d : HistoryContact} {now : Int64} (hnow : 0 < now) {texts : List Str}
    (h : ∀ t ∈ texts, ReadsBack t) (item : Str) :
    seen (newer c 0 (texts.map (itemEvent d.cdesc now))) texts.length item = true ↔
      ∃ t ∈ texts, dropCR t = dropCR item := by
  have hall : (texts.map (itemEvent d.cdesc now)).filter (fun e => 0 < e.timestamp) =
      texts.map (itemEvent d.cdesc now) :=
    List.filter_eq_self.mpr fun e he => by
      obtain ⟨t, -, rfl⟩ := List.mem_map.mp he
      exact decide_eq_true hnow
  have hbody : ∀ t ∈ texts, (deliver c (readBack (itemEvent d.cdesc now t))).body =
      .immessage (norm t) := fun t ht => readBack_item (h t ht)
  rw [newer, hall, List.map_map, seen, List.take_of_length_le (by simp), List.any_reverse,
    List.any_map, List.any_eq_true]
  constructor
  · rintro ⟨t, ht, hm⟩
    refine ⟨t, ht, ?_⟩
    simp only [Function.comp_apply, hbody t ht, beq_iff_eq, dropCR_norm] at hm
    exact hm.symm
  · rintro ⟨t, ht, hm⟩
    refine ⟨t, ht, ?_⟩
    simp only [Function.comp_apply, hbody t ht, beq_iff_eq, dropCR_norm]
    exact hm.symm

theorem unseen_eq_nil_iff (events : List ImEvent) (items : List Str) :
    unseen events items = [] ↔ ∀ t ∈ items, seen events (3 * items.length) t = true := by
  by_cases he : events = []
  · subst he
    constructor
    · rintro rfl
      simp
    · intro h
      exact List.eq_nil_iff_forall_not_mem.mpr fun t ht => absurd (h t ht) (by simp [seen])
  · rw [unseen, if_neg he, List.filter_eq_nil_iff, List.forall_mem_map]
    refine forall₂_congr fun t _ => ?_
    rw [seen_min, seen_congr (dropCR_dropCR t)]
    simp

/-- The texts that are stored are those of the items that were not seen. -/
theorem mem_unseen_iff (events : List ImEvent) {items : List Str} {t : Str} (ht : t ∈ items) :
    (∃ u ∈ unseen events items, dropCR u = dropCR t) ↔
      seen events (3 * items.length) t = false := by
  by_cases he : events = []
  · subst he
    simpa [unseen, seen] using ⟨t, ht, rfl⟩
  · rw [unseen, if_neg he]
    constructor
    · rintro ⟨u, hu, hut⟩
      have hs := (List.mem_filter.mp hu).2
      rw [seen_min, seen_congr hut] at hs
      simpa using hs
    · intro hs
      refine ⟨dropCR t, List.mem_filter.mpr ⟨List.mem_map.mpr ⟨t, ht, rfl⟩, ?_⟩, dropCR_dropCR t⟩
      rw [seen_min, seen_congr (dropCR_dropCR t), hs]
      rfl

theorem unseen_readsBack {events : List ImEvent} {items : List Str}
    (h : ∀ t ∈ items, ReadsBack t) : ∀ t ∈ unseen events items, ReadsBack t := by
  intro t ht
  rw [unseen] at ht
  split_ifs at ht
  · exact h t ht
  · obtain ⟨u, hu, rfl⟩ := List.mem_map.mp (List.mem_filter.mp ht).1
    exact (h u hu).dropCR

theorem unseen_length_le (events : List ImEvent) (items : List Str) :
    (unseen events items).length ≤ items.length := by
  rw [unseen]
  split_ifs
  · exact le_rfl
  · exact (List.length_filter_le _ _).trans (by rw [List.length_map])

/-- After the new texts are stored, an item is seen again if it was new, or if the window
still reaches its event. -/
theorem unseen_again_iff {c : HistoryContact} {now : Int64} (hnow : 0 < now) {es : List ImEvent}
    {items : List Str} (h : ∀ t ∈ items, ReadsBack t) :
    unseen (newer c 0 (es ++ (unseen (newer c 0 es) items).reverse.map (itemEvent c.cdesc now)))
        items = [] ↔
      ∀ t ∈ items, seen (newer c 0 es) (3 * items.length) t = true →
        seen (newer c 0 es) (3 * items.length - (unseen (newer c 0 es) items).length) t = true := by
  have hnew : ∀ t ∈ (unseen (newer c 0 es) items).reverse, ReadsBack t := fun t ht =>
    unseen_readsBack h t (List.mem_reverse.mp ht)
  have hseen := fun t => seen_items (c := c) (d := c) hnow hnew t
  have hlen : (newer c 0 ((unseen (newer c 0 es) items).reverse.map
      (itemEvent c.cdesc now))).length = (unseen (newer c 0 es) items).length := by
    rw [newer, List.length_map, List.filter_eq_self.mpr, List.length_map, List.length_reverse]
    intro e he
    obtain ⟨t, -, rfl⟩ := List.mem_map.mp he
    exact decide_eq_true hnow
  have hle := unseen_length_le (newer c 0 es) items
  rw [List.length_reverse] at hseen
  rw [newer_append, unseen_eq_nil_iff]
  refine forall₂_congr fun t ht => ?_
  rw [seen_append _ (by omega), hlen, Bool.or_eq_true, hseen t]
  have hm := mem_unseen_iff (newer c 0 es) ht
  simp only [List.mem_reverse, hm]
  cases seen (newer c 0 es) (3 * items.length) t <;> simp

theorem store_ignored {f : Feed} (h : f.ignored = true) (evs : List ImEvent) :
    evs.foldl store f = f := by
  induction evs with
  | nil => rfl
  | cons ev evs ih => rw [List.foldl_cons, store, if_pos h, ih]

/-- Stored events are appended to the file, and nothing else changes but the flag. -/
theorem store_listed {f : Feed} (h : f.ignored = false) (evs : List ImEvent) :
    ∃ file b, evs.foldl store f =
        { f with file := file, contact := { f.contact with fhasevents := b } } ∧
      file.getD [] = f.file.getD [] ++ writeAll evs ∧ (evs = [] → file = f.file) ∧
      (evs ≠ [] → file ≠ none) := by
  induction evs generalizing f with
  | nil => exact ⟨f.file, f.contact.fhasevents, rfl, by simp [writeAll], fun _ => rfl, by simp⟩
  | cons ev evs ih =>
    have hs : store f ev = { f with
        file := some (f.file.getD [] ++ ev.write)
        contact := { f.contact with fhasevents := true } } := if_neg (by simp [h])
    obtain ⟨file, b, heq, hfile, hnil, hcons⟩ := ih (f := store f ev) (by rw [hs]; exact h)
    rw [hs] at heq hfile hnil
    refine ⟨file, b, ?_, ?_, by simp, fun _ => ?_⟩
    · rw [List.foldl_cons, hs, heq]
    · rw [hfile]
      simp [writeAll]
    · cases evs with
      | nil =>
        rw [hnil rfl]
        exact Option.some_ne_none _
      | cons => exact hcons (List.cons_ne_nil _ _)

theorem write_ne_nil (c : ImContact) (now : Int64) (text : Str) :
    (itemEvent c now text).write ≠ [] := by
  simp [itemEvent, ImEvent.write, writeHeader, ImEvent.gettype, Body.gettype]

theorem storeItems_file_iff {f : Feed} (h : f.ignored = false) (now : Int64) (items : List Str) :
    (storeItems now f items).file = f.file ↔ items = [] := by
  obtain ⟨file, b, heq, hfile, hnil, -⟩ :=
    store_listed h (items.reverse.map (itemEvent f.contact.cdesc now))
  rw [← RssFeed.storeItems] at heq
  rw [heq]
  constructor
  · intro hsame
    have hlen := congrArg List.length hfile
    rw [show file = f.file from hsame, List.length_append] at hlen
    have hw : writeAll (items.reverse.map (itemEvent f.contact.cdesc now)) = [] :=
      List.length_eq_zero_iff.mp (by omega)
    rw [writeAll, List.flatMap_eq_nil_iff] at hw
    refine List.eq_nil_iff_forall_not_mem.mpr fun t ht => ?_
    exact write_ne_nil _ _ _ (hw _ (List.mem_map.mpr ⟨t, List.mem_reverse.mpr ht, rfl⟩))
  · rintro rfl
    exact hnil rfl

theorem Holds.getevents {file : Option Str} {es : List ImEvent} (h : Holds file es)
    (hc : ∀ e ∈ es, Persisted e ∧ Clean e) (c : HistoryContact) :
    getevents file c 0 = .ok (newer c 0 es) := by
  rcases h with rfl | ⟨rfl, rfl⟩
  · exact getevents_zero hc c
  · rfl

theorem Holds.storeItems {f : Feed} {es : List ImEvent} (h : Holds f.file es)
    (hi : f.ignored = false) (now : Int64) (items : List Str) :
    ∃ file b, storeItems now f items =
        { f with file := file, contact := { f.contact with fhasevents := b } } ∧
      Holds file (es ++ items.reverse.map (itemEvent f.contact.cdesc now)) := by
  obtain ⟨file, b, heq, hfile, hnil, hcons⟩ :=
    store_listed hi (items.reverse.map (itemEvent f.contact.cdesc now))
  refine ⟨file, b, heq, ?_⟩
  by_cases hn : items = []
  · subst hn
    rw [hnil rfl]
    simpa using h
  · obtain ⟨content, rfl⟩ := Option.ne_none_iff_exists'.mp (hcons (by simpa using hn))
    have hold : f.file.getD [] = writeAll es := by
      rcases h with h | ⟨h, rfl⟩
      · rw [h, Option.getD_some]
      · rw [h]
        rfl
    rw [Option.getD_some, hold] at hfile
    refine Or.inl ?_
    rw [hfile]
    simp [writeAll]

section Runs

variable (siconv : Str → Str → Str → Str) (convertto : Str)

theorem parsedocument_eq {rev : HTTPRequestEvent} {d : Document}
    (hd : readDocument siconv convertto rev = .ok d) {f : Feed} {es : List ImEvent}
    (hf : Holds f.file es) (hc : ∀ e ∈ es, Persisted e ∧ Clean e) (hin : f.inlist = true)
    (hr : f.contact.cdesc.eq contactroot = false) (now : Int64) :
    parsedocument siconv convertto now rev f =
      .ok (storeItems now (setinfo now d f) (unseen (newer f.contact 0 es) (d.items.getD []))) := by
  have hfinish : ∀ items, finish now rev (setinfo now d f) items =
      storeItems now (setinfo now d f) items := fun items => if_pos (by simp [setinfo, hin, hr])
  rw [parsedocument, hd]
  cases hi : d.items with
  | none =>
    have hnil : unseen (newer f.contact 0 es) [] = [] := by simp [unseen]
    simp only [hi, Option.getD_none, hnil, hfinish]
  | some items => simp only [hi, hf.getevents hc, Option.getD_some, hfinish]

/-- Two runs on a document one after the other, of which the second leaves the history as it
is. -/
def SecondStoresNothing (now later : Int64) (rev : HTTPRequestEvent) (f : Feed) : Prop :=
  ∃ f₁, parsedocument siconv convertto now rev f = .ok f₁ ∧
    ∃ f₂, parsedocument siconv convertto later rev f₁ = .ok f₂ ∧ f₂.file = f₁.file

instance (now later : Int64) (rev : HTTPRequestEvent) (f : Feed) :
    Decidable (SecondStoresNothing siconv convertto now later rev f) :=
  match h₁ : parsedocument siconv convertto now rev f with
  | .error _ => isFalse fun ⟨_, h, _⟩ => absurd (h₁.symm.trans h) (by simp)
  | .ok f₁ =>
    match h₂ : parsedocument siconv convertto later rev f₁ with
    | .error _ => isFalse fun ⟨_, h, _, h', _⟩ => by
        obtain rfl := Except.ok.inj (h₁.symm.trans h)
        exact absurd (h₂.symm.trans h') (by simp)
    | .ok f₂ => decidable_of_iff (f₂.file = f₁.file) ⟨fun h => ⟨f₁, h₁, f₂, h₂, h⟩,
        fun ⟨_, h, _, h', hfile⟩ => by
          obtain rfl := Except.ok.inj (h₁.symm.trans h)
          obtain rfl := Except.ok.inj (h₂.symm.trans h')
          exact hfile⟩

/-- The second of two runs on a document stores nothing if and only if each item that the
first one found among the last events, three times as many as there are items, is still among
them when the new ones have taken their places at the end. -/
theorem second_poll {rev : HTTPRequestEvent} {d : Document}
    (hd : readDocument siconv convertto rev = .ok d)
    (hitems : ∀ t ∈ d.items.getD [], ReadsBack t) {f : Feed} {es : List ImEvent}
    (hf : Holds f.file es) (hc : ∀ e ∈ es, Persisted e ∧ Clean e) (hin : f.inlist = true)
    (hr : f.contact.cdesc.eq contactroot = false) {now : Int64} (hnow : 0 < now)
    (later : Int64) :
    ∃ events, getevents f.file f.contact 0 = .ok events ∧
      (SecondStoresNothing siconv convertto now later rev f ↔
        f.ignored = true ∨ ∀ t ∈ d.items.getD [],
          seen events (3 * (d.items.getD []).length) t = true →
            seen events (3 * (d.items.getD []).length -
              (unseen events (d.items.getD [])).length) t = true) := by
  obtain ⟨items, hd'⟩ : ∃ items, d.items.getD [] = items := ⟨_, rfl⟩
  rw [hd'] at hitems ⊢
  have hfirst := parsedocument_eq siconv convertto hd hf hc hin hr now
  rw [hd'] at hfirst
  by_cases hi : f.ignored = true
  · have hstore : ∀ now texts g, g.ignored = true → storeItems now g texts = g :=
      fun _ _ _ hg => store_ignored hg _
    have hsecond := parsedocument_eq siconv convertto hd (f := setinfo now d f) hf hc hin hr later
    refine ⟨_, hf.getevents hc _, fun _ => Or.inl hi, fun _ => ?_⟩
    exact ⟨_, hfirst.trans (congrArg _ (hstore _ _ _ hi)), _,
      hsecond.trans (congrArg _ (hstore _ _ _ hi)), rfl⟩
  · have hi' : f.ignored = false := by simpa using hi
    obtain ⟨file, b, hstored, hf'⟩ := Holds.storeItems (f := setinfo now d f) hf hi' now
      (unseen (newer f.contact 0 es) items)
    rw [hstored] at hfirst
    have hnew : ∀ t ∈ unseen (newer f.contact 0 es) items, ReadsBack t := unseen_readsBack hitems
    have hc' : ∀ e ∈ es ++ (unseen (newer f.contact 0 es) items).reverse.map
        (itemEvent f.contact.cdesc now), Persisted e ∧ Clean e := by
      intro e he
      rcases List.mem_append.mp he with he | he
      · exact hc e he
      · obtain ⟨t, ht, rfl⟩ := List.mem_map.mp he
        have htext := itemEvent_text f.contact.cdesc now (hnew t (List.mem_reverse.mp ht))
        exact ⟨htext.stored, htext.clean⟩
    have hsecond := parsedocument_eq siconv convertto hd hf' hc' (f := { setinfo now d f with
      file := file, contact := { f.contact with fhasevents := b } }) hin hr later
    rw [hd'] at hsecond
    have hfile := storeItems_file_iff (f := setinfo later d { setinfo now d f with
      file := file, contact := { f.contact with fhasevents := b } }) hi' later
    refine ⟨_, hf.getevents hc _, ?_⟩
    rw [or_iff_right hi, ← unseen_again_iff hnow hitems]
    constructor
    · rintro ⟨f₁, h₁, f₂, h₂, hsame⟩
      obtain rfl := Except.ok.inj (hfirst.symm.trans h₁)
      obtain rfl := Except.ok.inj (hsecond.symm.trans h₂)
      exact (hfile _).mp hsame
    · intro hnil
      exact ⟨_, hfirst, _, hsecond, (hfile _).mpr hnil⟩

end Runs

def newsDocument : HTTPRequestEvent :=
  ⟨bytes "<rss><channel><item><title>A</title></item><item><title>B</title></item></channel></rss>",
    bytes "http://localhost/news", [], true⟩

/-- The history of a feed that has the first item, with five other messages after it. -/
def newsHistory : List ImEvent :=
  itemEvent (.ofUin 7 .rss) 1 (bytes "Title: A\n\n") ::
    List.replicate 5 (itemEvent (.ofUin 7 .rss) 2 (bytes "Title: C\n\n"))

def newsFeed (es : List ImEvent) : Feed :=
  ⟨some (writeAll es), ⟨.ofUin 7 .rss, 0, 0, false, [], []⟩, true, false, [], [], [], [], [], [],
    [], [], 0⟩

def noConversion (s _ _ : Str) : Str := s

def news : Document :=
  { lname := bytes "success", items := some [bytes "Title: A\n\n", bytes "Title: B\n\n"] }

theorem readDocument_news : readDocument noConversion [] newsDocument = .ok news := by
  decide +kernel

theorem news_readsBack : ∀ t ∈ news.items.getD [], ReadsBack t := by
  decide +kernel

theorem newsHistory_clean : ∀ e ∈ newsHistory, Persisted e ∧ Clean e := by
  have hitem : ∀ now text, ReadsBack text → Persisted (itemEvent (.ofUin 7 .rss) now text) ∧
      Clean (itemEvent (.ofUin 7 .rss) now text) :=
    fun now text h => ⟨(itemEvent_text _ now h).stored, (itemEvent_text _ now h).clean⟩
  intro e he
  rcases List.mem_cons.mp he with rfl | he
  · exact hitem _ _ (by decide)
  · obtain rfl := (List.mem_replicate.mp he).2
    exact hitem _ _ (by decide)

/-- A feed without a history. -/
theorem second_poll_fresh :
    SecondStoresNothing noConversion [] 3 4 newsDocument (newsFeed []) := by
  obtain ⟨events, hev, hiff⟩ := second_poll noConversion [] readDocument_news news_readsBack
    (f := newsFeed []) (Or.inl rfl) (by simp) rfl rfl (by decide : (0 : Int64) < 3) 4
  have hnone : getevents (newsFeed []).file (newsFeed []).contact 0 = .ok [] := rfl
  obtain rfl := Except.ok.inj (hnone.symm.trans hev)
  exact hiff.mpr (Or.inr fun t _ h => absurd h (by simp [seen]))

/-- The first run stores the second item, which pushes the first one out of the window, and
the second run stores that one again. -/
theorem second_poll_stores :
    ¬ ∀ rev d f es, readDocument noConversion [] rev = .ok d → (d.items.getD []).Nodup →
      (∀ t ∈ d.items.getD [], ReadsBack t) → Holds f.file es →
      (∀ e ∈ es, Persisted e ∧ Clean e) → f.inlist = true →
      f.contact.cdesc.eq contactroot = false →
      SecondStoresNothing noConversion [] 3 4 rev f := by
  intro h
  have hrun := h newsDocument news (newsFeed newsHistory) newsHistory readDocument_news (by decide)
    news_readsBack (Or.inl rfl) newsHistory_clean rfl rfl
  have hstores : ¬ SecondStoresNothing noConversion [] 3 4 newsDocument (newsFeed newsHistory) := by
    decide +kernel
  exact hstores hrun

end CenterIM.RssPolling
