import CenterIM.HttpClient

/-!
# The body of a POST request

The text that `HTTPClient::SendRequest` packs, and the parameters of a form as a server reads
them from the announced number of bytes.
-/
namespace CenterIM.PostBody
open ByteText Decimal StrText HttpClient

abbrev amp : Byte := 38
abbrev equals : Byte := 61

def crlf : Str := [cr, lf]

/-- `HTTPRequestEvent::addParam`. -/
def addParam (ev : HTTPRequestEvent) (pname pval : Str) : HTTPRequestEvent :=
  { ev with params := ev.params ++ [(mime pname, mime pval)] }

/-- What `SendRequest` reads of the client. The lines with credentials and the name of the
program are given as they are packed. -/
structure Client where
  m_hostname : Str
  m_resource : Str
  m_port : UInt16
  m_proxy_hostname : Str
  proxyAuthorization : Str
  userAgent : Str
  authorization : Str

/-- `strMethod`. -/
def strMethod : RequestMethod → Str
  | .GET => bytes "GET"
  | .POST => bytes "POST"

def requestHead (c : Client) (ev : HTTPRequestEvent) : Str :=
  let rq := strMethod ev.method
  (if c.m_proxy_hostname = [] then
    rq ++ bytes " " ++ c.m_resource ++ bytes " HTTP/1.0" ++ crlf ++ bytes "Host: " ++ c.m_hostname ++
      (if c.m_port ≠ 80 then bytes ":" ++ decimal c.m_port.toNat else []) ++ crlf
  else rq ++ bytes " http://" ++ c.m_hostname ++ c.m_resource ++ bytes " HTTP/1.0" ++ crlf) ++
    c.proxyAuthorization ++ bytes "User-Agent: " ++ c.userAgent ++ crlf ++ c.authorization

/-- The loop that computes the length, an `int`, with the last separator taken off. -/
def postLength (params : List (Str × Str)) : Int32 :=
  params.foldl (fun len p => len + Int32.ofNat (p.1.length + p.2.length + 2)) 0 - 1

def postParams : List (Str × Str) → Str
  | [] => []
  | p :: ps => p.1 ++ [equals] ++ p.2 ++ ps.flatMap fun p => [amp] ++ p.1 ++ [equals] ++ p.2

def contentType : Str := bytes "Content-type: application/x-www-form-urlencoded" ++ crlf

def contentLength : Str := bytes "Content-length: "

/-- The buffer that `HTTPClient::SendRequest` sends. -/
def sendRequest (c : Client) (ev : HTTPRequestEvent) : Str :=
  requestHead c ev ++
    (if ev.method = .POST then
      contentType ++ contentLength ++ decimalInt (postLength ev.params).toInt ++ crlf ++ crlf ++
        postParams ev.params
    else []) ++ crlf

/-- One parameter of a form, cut at the first `=`. -/
def readParam (part : Str) : Except Fault (Str × Str) := do
  let name := part.takeWhile (· ≠ equals)
  let pname ← unmime name
  let pval ← unmime (part.drop (name.length + 1))
  return (pname, pval)

def readParams (body : Str) : Except Fault (List (Str × Str)) := (body.splitOn amp).mapM readParam

def postParam (p : Str × Str) : Str := p.1 ++ [equals] ++ p.2

theorem postParams_eq (ps : List (Str × Str)) :
    postParams ps = [amp].intercalate (ps.map postParam) := by
  cases ps with
  | nil => rfl
  | cons p ps =>
    induction ps generalizing p with
    | nil => simp [postParams, postParam, List.intercalate]
    | cons q ps ih =>
      have hq := ih q
      simp only [List.map_cons] at hq ⊢
      rw [List.intercalate_cons_cons, ← hq]
      simp [postParams, postParam]

/-- The bytes of a form and one more, by its parameters. -/
def formSize (ps : List (Str × Str)) : ℕ := (ps.map fun p => p.1.length + p.2.length + 2).sum

theorem length_postParams {ps : List (Str × Str)} (hne : ps ≠ []) :
    (postParams ps).length + 1 = formSize ps := by
  have hrest : ∀ ps : List (Str × Str),
      (ps.flatMap fun p => [amp] ++ p.1 ++ [equals] ++ p.2).length = formSize ps := by
    intro ps
    induction ps with
    | nil => rfl
    | cons p ps ih =>
      rw [List.flatMap_cons, List.length_append, ih, formSize, formSize, List.map_cons,
        List.sum_cons]
      simp only [List.length_append, List.length_cons, List.length_nil]
      omega
  obtain ⟨p, ps, rfl⟩ := List.exists_cons_of_ne_nil hne
  rw [postParams, List.length_append, hrest, formSize, formSize, List.map_cons, List.sum_cons]
  simp only [List.length_append, List.length_cons, List.length_nil]
  omega

theorem postLength_eq (ps : List (Str × Str)) : postLength ps = Int32.ofNat (formSize ps) - 1 := by
  have hfold : ∀ (ps : List (Str × Str)) (len : Int32),
      ps.foldl (fun len p => len + Int32.ofNat (p.1.length + p.2.length + 2)) len =
        len + Int32.ofNat (formSize ps) := by
    intro ps
    induction ps with
    | nil => intro len; simp [formSize]
    | cons p ps ih =>
      intro len
      have hsum : formSize (p :: ps) = p.1.length + p.2.length + 2 + formSize ps := rfl
      rw [List.foldl_cons, ih, hsum, Int32.ofNat_add (p.1.length + p.2.length + 2),
        Int32.add_assoc]
  rw [postLength, hfold, Int32.zero_add]

/-- The announced number is the size of a form just when that is less than 2^31. -/
theorem postLength_toInt {ps : List (Str × Str)} (hne : ps ≠ []) :
    (postLength ps).toInt = (postParams ps).length ↔ formSize ps ≤ 2 ^ 31 := by
  have hsize := length_postParams hne
  have hlen : postLength ps = Int32.ofNat (postParams ps).length := by
    rw [postLength_eq, ← hsize, Int32.ofNat_add]
    exact Int32.add_sub_cancel _ _
  rw [hlen, Int32.toInt_ofNat', ← hsize, show Int32.size = 2 ^ 32 from rfl]
  constructor
  · intro h
    have hlt := Int.bmod_lt (x := ((postParams ps).length : ℤ)) (m := 2 ^ 32) (by decide)
    rw [h] at hlt
    omega
  · intro h
    exact Int.bmod_eq_of_le (by omega) (by omega)

theorem decimal_inj {m n : ℕ} (h : decimal m = decimal n) : m = n := by
  rw [← leadingNumber_decimal m, h, leadingNumber_decimal]

theorem decimalInt_eq_decimal {i : ℤ} {n : ℕ} (h : decimalInt i = decimal n) : i = n := by
  rw [decimalInt] at h
  split_ifs at h with hneg
  · obtain ⟨c, t, hc, hdigit⟩ := decimal_cons n
    rw [hc] at h
    rw [← (List.cons.inj h).1] at hdigit
    exact absurd hdigit (by decide)
  · have habs := decimal_inj h
    omega

theorem readParam_postParam {p : Str × Str} (hn : nul ∉ p.1) (hv : nul ∉ p.2) :
    readParam (postParam (mime p.1, mime p.2)) = .ok p := by
  have heq : equals ∉ mime p.1 := not_mem_mime (by decide) (by decide) (by decide) p.1
  have htake : (postParam (mime p.1, mime p.2)).takeWhile (· ≠ equals) = mime p.1 := by
    have hall : ∀ c ∈ mime p.1, decide (c ≠ equals) = true := by
      intro c hc
      exact decide_eq_true fun he => heq (he ▸ hc)
    rw [postParam, List.append_assoc, List.takeWhile_append_of_pos hall]
    simp
  have hdrop : (postParam (mime p.1, mime p.2)).drop ((mime p.1).length + 1) = mime p.2 := by
    simp [postParam]
  simp only [readParam, htake, hdrop, unmime_mime hn, unmime_mime hv]
  rfl

theorem readParams_postParams {ps : List (Str × Str)} (hne : ps ≠ [])
    (h : ∀ p ∈ ps, nul ∉ p.1 ∧ nul ∉ p.2) :
    readParams (postParams (ps.map fun p => (mime p.1, mime p.2))) = .ok ps := by
  have hparts : ∀ part ∈ (ps.map fun p => (mime p.1, mime p.2)).map postParam, amp ∉ part := by
    intro part hp
    simp only [List.map_map, List.mem_map, Function.comp_apply] at hp
    obtain ⟨p, -, rfl⟩ := hp
    have hno : ∀ s, amp ∉ mime s := not_mem_mime (by decide) (by decide) (by decide)
    have hne : amp ≠ equals := by decide
    simp [postParam, hno, hne]
  rw [readParams, postParams_eq, List.splitOn_intercalate amp hparts (by simpa using hne)]
  clear hne hparts
  induction ps with
  | nil => rfl
  | cons p ps ih =>
    obtain ⟨hn, hv⟩ := h p (by simp)
    have hrest := ih fun q hq => h q (by simp [hq])
    simp only [List.map_cons, List.mapM_cons, readParam_postParam hn hv, hrest]
    rfl

theorem addParam_foldl (ev : HTTPRequestEvent) (ps : List (Str × Str)) :
    ps.foldl (fun ev p => addParam ev p.1 p.2) ev =
      { ev with params := ev.params ++ ps.map fun p => (mime p.1, mime p.2) } := by
  induction ps generalizing ev with
  | nil => simp
  | cons p ps ih =>
    rw [List.foldl_cons, ih]
    simp [addParam]

/-- The body of a request, without the end of a line that every request has, is the number of
bytes that is announced, and these are read as the parameters `ps`. -/
def Delivers (c : Client) (ev : HTTPRequestEvent) (ps : List (Str × Str)) : Prop :=
  let body := postParams ev.params ++ crlf
  ∃ n, sendRequest c ev =
      requestHead c ev ++ contentType ++ contentLength ++ decimal n ++ crlf ++ crlf ++ body ∧
    body.take n = postParams ev.params ∧ readParams (body.take n) = .ok ps

theorem Delivers.announced {c : Client} {ev : HTTPRequestEvent} {ps : List (Str × Str)}
    (hm : ev.method = .POST) (h : Delivers c ev ps) :
    (postLength ev.params).toInt = (postParams ev.params).length := by
  obtain ⟨n, hsent, htake, -⟩ := h
  have hn : n = (postParams ev.params).length := by
    have hlen := congrArg List.length htake
    rw [List.length_take, List.length_append, show crlf.length = 2 from rfl] at hlen
    omega
  rw [← hn]
  refine decimalInt_eq_decimal ?_
  simpa only [sendRequest, if_pos hm, List.append_assoc, List.append_cancel_left_eq,
    List.append_cancel_right_eq] using hsent

theorem formSize_mime (ps : List (Str × Str)) : formSize (ps.map fun p => (mime p.1, mime p.2)) =
    (ps.map fun p => (mime p.1).length + (mime p.2).length + 2).sum := by
  rw [formSize, List.map_map]
  rfl

/-- The parameters that were given are announced and read in their order, as long as the body has
less than 2^31 bytes. -/
theorem sendRequest_post_iff (c : Client) {ev : HTTPRequestEvent} (hm : ev.method = .POST)
    (hev : ev.params = []) {ps : List (Str × Str)} (hne : ps ≠ [])
    (h : ∀ p ∈ ps, nul ∉ p.1 ∧ nul ∉ p.2) :
    Delivers c (ps.foldl (fun ev p => addParam ev p.1 p.2) ev) ps ↔
      (ps.map fun p => (mime p.1).length + (mime p.2).length + 2).sum ≤ 2 ^ 31 := by
  have hmethod : (ps.foldl (fun ev p => addParam ev p.1 p.2) ev).method = .POST := by
    rw [addParam_foldl, ← hm]
  have hparams : (ps.foldl (fun ev p => addParam ev p.1 p.2) ev).params =
      ps.map fun p => (mime p.1, mime p.2) := by
    rw [addParam_foldl, hev]
    rfl
  have hmne : (ps.map fun p => (mime p.1, mime p.2)) ≠ [] := by simpa using hne
  rw [← formSize_mime, ← postLength_toInt hmne, ← hparams]
  refine ⟨fun hread => hread.announced hmethod, fun hlen => ⟨_, ?_, List.take_left, ?_⟩⟩
  · rw [sendRequest, if_pos hmethod, hlen, decimalInt_natCast]
    simp only [List.append_assoc]
  · rw [List.take_left, hparams]
    exact readParams_postParams hne h

/-- A blank and separators in the names and values of three parameters. -/
theorem sendRequest_post_search :
    Delivers ⟨bytes "host", bytes "/", 80, [], [], bytes "centerim", []⟩
      ([(bytes "a b", bytes "1&2="), (bytes "=", []), (bytes "c", bytes "%")].foldl
        (fun ev p => addParam ev p.1 p.2)
        { id := 0, url := bytes "http://host/", method := .POST })
      [(bytes "a b", bytes "1&2="), (bytes "=", []), (bytes "c", bytes "%")] :=
  (sendRequest_post_iff _ rfl rfl (by decide) (by decide)).mpr (by decide)

/-- Of too many parameters with the name `a` and no value another number is announced. -/
theorem not_delivers_many (c : Client) {ev : HTTPRequestEvent} (hm : ev.method = .POST)
    (hev : ev.params = []) {n : ℕ} (hn : 2 ^ 31 < n * 3) :
    ¬Delivers c ((List.replicate n (bytes "a", [])).foldl (fun ev p => addParam ev p.1 p.2) ev)
      (List.replicate n (bytes "a", [])) := by
  intro hread
  have hlen := hread.announced (by rw [addParam_foldl, ← hm])
  have hne : (List.replicate n (bytes "a", ([] : Str))).map (fun p => (mime p.1, mime p.2)) ≠ [] := by
    rw [List.map_replicate, Ne, List.replicate_eq_nil_iff]
    omega
  have hone : (mime (bytes "a")).length + (mime []).length + 2 = 3 := by decide
  rw [addParam_foldl, hev, List.nil_append, postLength_toInt hne, formSize_mime,
    List.map_replicate, List.sum_replicate, hone, smul_eq_mul] at hlen
  omega

theorem sendRequest_post_overflow :
    ¬Delivers ⟨bytes "host", bytes "/", 80, [], [], bytes "centerim", []⟩
      ((List.replicate (2 ^ 30) (bytes "a", [])).foldl (fun ev p => addParam ev p.1 p.2)
        { id := 0, url := bytes "http://host/", method := .POST })
      (List.replicate (2 ^ 30) (bytes "a", [])) :=
  not_delivers_many _ rfl rfl (by norm_num)

end CenterIM.PostBody
