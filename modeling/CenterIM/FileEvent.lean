import CenterIM.EventText

/-!
# File events in the history

An `imfile` on its way into the history file and back: the event manager copies it with
`getevent`, writes the copy, and the record is read again.
-/
namespace CenterIM.FileEvent
open ByteText StrText Contact Event EventReader EventLines RecordText EventFraming EventText

/-- What the conversion constructor of a subclass takes from an object of that class;
`imfile` leaves its message empty. -/
def Body.copy : Body → Body
  | .imfile files _ => .imfile files []
  | body => body

/-- `imevent::getevent`; only `immessage` copies the acknowledgement. -/
def getevent (e : ImEvent) : ImEvent :=
  { e with
    acknowledged := e.gettype == .message && e.acknowledged
    body := Body.copy e.body }

/-- `imeventmanager::store` for an event that goes to the history: no external action
refuses it, and it is from a contact of the list that is not ignored or was sent. -/
def store (fhist : Str) (cev : ImEvent) : Str := fhist ++ (getevent cev).write

/-- What is read at the place of an event that was stored after some others. -/
def restored (pre : List ImEvent) (e : ImEvent) (post : List ImEvent) : Option Body :=
  (readAll (post.foldl store (store (pre.foldl store []) e))).toOption.bind fun es =>
    es[pre.length]?.map ImEvent.body

theorem foldl_store (fhist : Str) (es : List ImEvent) :
    es.foldl store fhist = fhist ++ writeAll (es.map getevent) := by
  induction es generalizing fhist with
  | nil => simp [writeAll]
  | cons e es ih =>
    rw [List.foldl_cons, ih, store, List.map_cons, writeAll, writeAll, List.flatMap_cons,
      List.append_assoc]

theorem restored_eq (pre : List ImEvent) (e : ImEvent) (post : List ImEvent) :
    restored pre e post = readAt (pre.map getevent) (getevent e) (post.map getevent) := by
  have hw : post.foldl store (store (pre.foldl store []) e) =
      writeAll (pre.map getevent ++ getevent e :: post.map getevent) := by
    rw [foldl_store, foldl_store, store]
    simp [writeAll]
  rw [restored, hw, readAt, List.length_map]

/-- The record of an `imfile` has no marker in it, whatever its message. -/
theorem imfile_clean {e : ImEvent} {files : List FileRecord} {msg : Str}
    (hb : e.body = .imfile files msg) (hd : e.direction ≠ .imdirection_size)
    (hn : ∀ s ∈ texts e.body, nul ∉ s) : Persisted e ∧ Clean e := by
  have hm : marker ∉ blockPart e.body := by
    rw [hb] at hn ⊢
    exact (fileOf_blockText hn).1
  refine ⟨⟨hd, ?_, hn, ?_⟩, ?_, fun h => absurd h hm⟩
  · intro type ht
    rw [hb] at ht
    cases ht
  · rw [hb]
    intro n hn
    simp [fieldNames] at hn
  · intro data hx
    rw [hb] at hx
    cases hx

theorem clean_getevent {e : ImEvent} (h : Persisted e ∧ Clean e) :
    Persisted (getevent e) ∧ Clean (getevent e) := by
  obtain ⟨hp, hc⟩ := h
  cases hb : e.body
  case imfile files msg =>
    have hcopy : (getevent e).body = .imfile files [] := by
      rw [getevent, hb]
      rfl
    refine imfile_clean hcopy hp.direction ?_
    rw [hcopy]
    intro s hs
    rcases List.mem_cons.mp hs with rfl | hs
    · simp
    · exact hp.text s (hb ▸ List.mem_cons_of_mem _ hs)
  all_goals
    have hcopy : (getevent e).body = e.body := by
      rw [getevent, hb]
      rfl
    refine ⟨⟨hp.direction, ?_, ?_, ?_⟩, ?_⟩
    · exact hcopy ▸ hp.kept
    · exact hcopy ▸ hp.text
    · exact hcopy ▸ hp.names
    · rw [Clean, hcopy]
      exact hc

theorem recordBody_imfile {e : ImEvent} {files : List FileRecord} {msg : Str}
    (hb : e.body = .imfile files msg) (hn : ∀ s ∈ texts e.body, nul ∉ s) :
    recordBody e = .ok e.body := by
  have ht : e.gettype = .file := by
    rw [ImEvent.gettype, hb]
    rfl
  rw [hb] at hn
  have hf := (fileOf_blockText hn).2
  rw [recordBody, ht, hb]
  simp [bodyOf, hf, Except.map]

section RoundTrip

variable {e : ImEvent} {files : List FileRecord} {msg : Str} {pre post : List ImEvent}

/-- The names and sizes come back, between other stored events, and no message. -/
theorem restored_files (hb : e.body = .imfile files msg) (hd : e.direction ≠ .imdirection_size)
    (hn : ∀ s ∈ texts e.body, nul ∉ s) (hall : ∀ d ∈ pre ++ post, Persisted d ∧ Clean d) :
    restored pre e post = some (.imfile files []) := by
  have hcopy : (getevent e).body = .imfile files [] := by
    rw [getevent, hb]
    rfl
  have hn' : ∀ s ∈ texts (getevent e).body, nul ∉ s := by
    rw [hb] at hn
    rw [hcopy]
    intro s hs
    rcases List.mem_cons.mp hs with rfl | hs
    · simp
    · exact hn s (List.mem_cons_of_mem _ hs)
  have hall' : ∀ d ∈ pre.map getevent ++ post.map getevent, Persisted d ∧ Clean d := by
    rw [← List.map_append]
    intro c hc
    obtain ⟨d, hd, rfl⟩ := List.mem_map.mp hc
    exact clean_getevent (hall d hd)
  rw [restored_eq, readAt_record (imfile_clean hcopy hd hn') (recordBody_imfile hcopy hn') hall',
    hcopy]

/-- An `imfile` comes back as it was exactly if it has no message. -/
theorem file_round_trip (hb : e.body = .imfile files msg) (hd : e.direction ≠ .imdirection_size)
    (hn : ∀ s ∈ texts e.body, nul ∉ s) (hall : ∀ d ∈ pre ++ post, Persisted d ∧ Clean d) :
    restored pre e post = some (.imfile files msg) ↔ msg = [] := by
  rw [restored_files hb hd hn hall]
  constructor
  · intro h
    injection h with h
    injection h with _ h
    exact h.symm
  · rintro rfl
    rfl

end RoundTrip

def twoFiles : List FileRecord := [⟨bytes "a b", -1⟩, ⟨bytes "notes.txt", 1024⟩]

def fileEvent (msg : Str) : ImEvent :=
  ⟨contactroot, .incoming, 5, 5, false, .imfile twoFiles msg⟩

theorem fileEvent_texts {msg : Str} (h : nul ∉ msg) : ∀ s ∈ texts (fileEvent msg).body, nul ∉ s := by
  intro s hs
  simp only [fileEvent, twoFiles, texts, List.map_cons, List.map_nil, List.mem_cons,
    List.not_mem_nil, or_false] at hs
  rcases hs with rfl | rfl | rfl
  · exact h
  · decide
  · decide

/-- The file event without a message, between two others. -/
theorem file_round_trip_plain :
    restored [plainMessage] (fileEvent []) [plainMessage] = some (.imfile twoFiles []) :=
  (file_round_trip rfl (by decide) (fileEvent_texts (by decide))
    (by simpa using plainMessage_clean)).mpr rfl

/-- The message "hi" is lost on the way. -/
theorem file_not_round_trip :
    restored [] (fileEvent (bytes "hi")) [] ≠ some (.imfile twoFiles (bytes "hi")) := by
  have hn : ∀ s ∈ texts (fileEvent (bytes "hi")).body, nul ∉ s := fileEvent_texts (by decide)
  rw [restored_files rfl (by decide) hn (by simp)]
  intro h
  injection h with h
  injection h with _ h
  exact absurd h (by decide)

end CenterIM.FileEvent
