import CenterIM.EventText
import CenterIM.HistoryFile

/-!
# RSS feeds

`rsshook::parsedocument`: the texts of the items of a feed document, the comparison with the
last events of the feed's history, and the storing of the others. Character set conversion is
iconv's and a parameter.
-/
namespace CenterIM.RssFeed
open ByteText Decimal LineStream StrText Contact XmlTree Event EventReader EventText HistoryFile

/-- `XmlNode::getAttrib`. -/
def getAttrib (attributes : List (Str × Str)) (aname : Str) : Str :=
  ((attributes.find? (·.1 == aname)).map Prod.snd).getD []

/-- The children that `XmlBranch::getNode(tag, n)` counts. -/
def nodes (branch : List XmlNode) (tag : Str) : List XmlNode := branch.filter (·.getTag == tag)

/-- `XmlBranch::getBranch(tag)`, a branch standing for its children. -/
def getBranch (branch : List XmlNode) (tag : Str) : Option (List XmlNode) :=
  match nodes branch tag with
  | .branch _ _ children :: _ => some children
  | _ => none

/-- `XmlBranch::getLeaf(tag)`: the attributes and the value. -/
def getLeaf (branch : List XmlNode) (tag : Str) : Option (List (Str × Str) × Str) :=
  match nodes branch tag with
  | .leaf _ attributes value :: _ => some (attributes, value)
  | _ => none

/-- The loop over `getBranch(tag, k)`, which ends at the first node that is no branch. -/
def branches : List XmlNode → List (List XmlNode)
  | .branch _ _ children :: rest => children :: branches rest
  | _ => []

/-- What `cuthtml` leaves of a tag. The letters that `ruscase` maps besides the Latin ones are
in none of the words that the tag is compared with. -/
def cutTag (chCutBR chLeaveLinks : Bool) (tag : Str) : Str :=
  let tag := if tag.head? = some slash then tag.tail else tag
  let around := bytes "/ \n\r"
  let tag := leadcut (trailcut tag around) around
  let (token, buf) := getword (up tag) wordDelim
  let text :=
    if token = bytes "BR" then if chCutBR then bytes "\n" else bytes "<br>"
    else if chCutBR && token == bytes "P" then bytes "\n\n"
    else []
  let tag := (getword tag wordDelim).2
  -- the quote is counted from the attribute, but cut off from the start of the tag
  let quoted (word : Str) : Option Str :=
    (find word buf).bind fun k =>
      (find (bytes "\"") (buf.drop k)).map fun n => (getword (tag.drop (n + 1)) (bytes "\"")).1
  let link :=
    if !chLeaveLinks then []
    else if token = bytes "A" then
      ((quoted (bytes "HREF")).map fun l => bytes "[ href: " ++ l ++ bytes " ] ").getD []
    else if token = bytes "IMG" then
      ((quoted (bytes "SRC")).map fun l => bytes " [ img: " ++ l ++ bytes " ]").getD []
    else []
  text ++ link

/-- The loop of `cuthtml`; every round leaves a tag behind. -/
def cutLoop (chCutBR chLeaveLinks : Bool) : ℕ → Str → Str
  | 0, html => html
  | fuel + 1, html =>
    match find (bytes "<") html with
    | none => html
    | some npos =>
      match find (bytes ">") (html.drop (npos + 1)) with
      | none => html
      | some n =>
        html.take npos ++ cutTag chCutBR chLeaveLinks ((html.drop (npos + 1)).take n) ++
          cutLoop chCutBR chLeaveLinks fuel (html.drop (npos + 1 + n + 1))

/-- `cuthtml(html, flags)`. -/
def cuthtml (html : Str) (chCutBR chLeaveLinks : Bool) : Str :=
  cutLoop chCutBR chLeaveLinks (html.length + 1) html

/-- The entities that `rushtmlconv` knows, without their `&`: how many characters are replaced
with it, and by what. -/
def entities : List (Str × ℕ × Str) :=
  [(bytes "amp;", 5, bytes "&"), (bytes "lt;", 4, bytes "<"), (bytes "gt;", 4, bytes ">"),
    (bytes "#150;", 6, bytes "-"), (bytes "#151;", 6, bytes "--"), (bytes "#146;", 6, [96]),
    (bytes "#39;", 5, [39]), (bytes "#8211;", 7, bytes "--"), (bytes "#8230;", 7, bytes "..."),
    (bytes "hellip;", 8, bytes "..."), (bytes "laquo;", 7, bytes "<<"),
    (bytes "raquo;", 7, bytes ">>"), (bytes "bdquo;", 7, bytes "\""),
    (bytes "ldquo;", 7, bytes "\""), (bytes "copy;", 8, bytes "(c)"), (bytes "#13;", 5, [cr]),
    (bytes "#10;", 5, [lf])]

/-- The rest of `rushtmlconv("wk", text, false)` after `skip` more replaced characters. -/
def entityLoop : ℕ → Str → Str
  | _, [] => []
  | 0, c :: s =>
    if c = 38 then
      match entities.find? fun e => e.1.isPrefixOf s with
      | some e => e.2.2 ++ entityLoop (e.2.1 - 1) s
      | none => c :: entityLoop 0 s
    else c :: entityLoop 0 s
  | skip + 1, _ :: s => entityLoop skip s

/-- The loop over the line break tags. Once there is no `<br` any more the position is past
the end, so no `<BR` is found. -/
def breakLoop : ℕ → Str → Str
  | _, [] => []
  | 0, c :: s =>
    if (bytes "<br").isPrefixOf (c :: s) then
      match find (bytes ">") (c :: s) with
      | some n => lf :: breakLoop n s
      | none => c :: breakLoop 0 s
    else c :: breakLoop 0 s
  | skip + 1, _ :: s => breakLoop skip s

section Documents

variable (siconv : Str → Str → Str → Str) (convertto : Str)

/-- `rsshook::fetchRSSParam`: what is added to the base. -/
def fetchRSSParam (i : List XmlNode) (enc name attr title after : Str) : Str :=
  match getLeaf i name with
  | none => []
  | some (attributes, value) =>
    let val := if attr = [] then value else getAttrib attributes attr
    if val = [] then []
    else
      let val := entityLoop 0 (cuthtml val true true)
      let val := if enc ≠ [] then siconv val enc convertto else val
      let val := replace_all (breakLoop 0 val) (bytes "<p>") (bytes "\n\n")
      title ++ val ++ after

def itemText (atom : Bool) (enc : Str) (item : List XmlNode) : Str :=
  let fetch := fetchRSSParam siconv convertto item enc
  fetch (bytes "title") [] (bytes "Title: ") [lf] ++
    fetch (if atom then bytes "updated" else bytes "pubDate") [] (bytes "Published on: ") [lf] ++
    fetch (bytes "category") [] (bytes "Category: ") [lf] ++
    fetch (bytes "author") [] (bytes "Author: ") [lf] ++
    [lf] ++
    fetch (if atom then bytes "summary" else bytes "description") [] (bytes "Description: ")
      [lf, lf] ++
    (if atom then fetch (bytes "content") [] [] [lf, lf] else []) ++
    fetch (bytes "link") (if atom then bytes "href" else []) (bytes "Link: ") [lf] ++
    fetch (bytes "comments") [] (bytes "Comments: ") [lf]

structure HTTPRequestEvent where
  content : Str
  url : Str
  httpresp : Str
  delivered : Bool

/-- What is read from a document. Empty texts do not replace what the contact has. -/
structure Document where
  lname : Str
  city : Str := []
  state : Str := []
  fname : Str := []
  homepage : Str := []
  about : Str := []
  items : Option (List Str) := none
  deriving DecidableEq, Repr

def encoding (content : Str) : Except Fault Str :=
  match find (bytes "<?xml") content with
  | none => .ok []
  | some k =>
    if content.length < k + 6 then .error .outOfRange
    else
      let xmlspec := content.drop (k + 6)
      match find (bytes "?>") xmlspec with
      | none => .ok []
      | some k =>
        let xmlspec := bytes "<x " ++ xmlspec.take k ++ bytes "/>"
        match parse (xmlspec.length + 3) xmlspec with
        | .error e => .error e
        | .ok (some (.leaf _ attributes _), _) => .ok (getAttrib attributes (bytes "encoding"))
        | .ok _ => .error .nullDeref

def readChannel (atom : Bool) (enc city : Str) (rss channel : List XmlNode) : Document :=
  let tag := if atom then bytes "entry" else bytes "item"
  let fetch := fetchRSSParam siconv convertto channel enc
  let link := fetch (bytes "link") (if atom then bytes "href" else []) [] [lf]
  let (holder, city) :=
    if (getBranch channel tag).isSome then (channel, city)
    else (rss, if city = [] then bytes "rdf" else city)
  { lname := bytes "success"
    city := city
    state := enc
    fname := fetch (bytes "title") [] [] [lf]
    homepage := link.filter fun c => !decide (c ∈ bytes " \t\r\n")
    about := fetch (if atom then bytes "subtitle" else bytes "description") [] [] [lf]
    items := some ((branches (nodes holder tag)).map (itemText siconv convertto atom enc)) }

/-- The part of `parsedocument` that reads the document. -/
def readDocument (rev : HTTPRequestEvent) : Except Fault Document :=
  if !rev.delivered || rev.content == [] then
    .ok { lname := if rev.httpresp = [] then bytes "couldn't fetch" else rev.httpresp }
  else
    match encoding rev.content with
    | .error e => .error e
    | .ok enc =>
      match parse (rev.content.length + 3) rev.content with
      | .error e => .error e
      | .ok (none, _) => .ok { lname := bytes "wrong XML", state := enc }
      | .ok (some top, _) =>
        let atom := up (top.getTag.take 4) == bytes "FEED"
        let kind := up (top.getTag.take 3)
        if kind ≠ bytes "RSS" ∧ kind ≠ bytes "RDF" ∧ !atom then
          .ok { lname := bytes "no <rss> or <feed> tag found", state := enc }
        else
          match top with
          | .leaf .. => .ok { lname := bytes "no <channel> or <entry> tag found", state := enc }
          | .branch _ attributes rss =>
            if nodes rss (if atom then bytes "entry" else bytes "channel") = [] then
              .ok { lname := bytes "no <channel> or <entry> tag found", state := enc }
            else
              let city := if atom then bytes "Atom" else getAttrib attributes (bytes "version")
              match if atom then some rss else getBranch rss (bytes "channel") with
              | none =>
                .ok { lname := bytes "wrong <channel> or <feed> tag", city := city, state := enc }
              | some channel => .ok (readChannel siconv convertto atom enc city rss channel)

end Documents

/-- The contact of a feed: its history, and what the documents said. -/
structure Feed where
  file : Option Str
  contact : HistoryContact
  inlist : Bool
  ignored : Bool
  nick : Str
  lname : Str
  city : Str
  state : Str
  fname : Str
  homepage : Str
  about : Str
  workpage : Str
  checklast : Int64

/-- Is one of the last `is` events a message with the text of this item? -/
def seen (events : List ImEvent) (is : ℕ) (item : Str) : Bool :=
  (events.reverse.take is).any fun ev =>
    match ev.body with
    | .immessage text => dropCR item == dropCR text
    | _ => false

/-- The items that are left after the comparison with the history. -/
def unseen (events : List ImEvent) (items : List Str) : List Str :=
  if events = [] then items
  else
    let is := min (3 * items.length) events.length
    (items.map dropCR).filter fun item => !seen events is item

/-- `immessage(c->getdesc(), imevent::incoming, text)`. -/
def itemEvent (c : ImContact) (timer_current : Int64) (text : Str) : ImEvent :=
  ⟨c, .incoming, timer_current, timer_current, false, .immessage text⟩

/-- `em.store` of an incoming event that no external action matches. -/
def store (f : Feed) (ev : ImEvent) : Feed :=
  if f.ignored then f
  else
    { f with
      file := some (f.file.getD [] ++ ev.write)
      contact := { f.contact with fhasevents := true } }

/-- The storing of the items, the last one first. -/
def storeItems (timer_current : Int64) (f : Feed) (items : List Str) : Feed :=
  (items.reverse.map (itemEvent f.contact.cdesc timer_current)).foldl store f

def setinfo (timer_current : Int64) (d : Document) (f : Feed) : Feed :=
  { f with
    lname := d.lname
    city := d.city
    state := d.state
    fname := if d.fname = [] then f.fname else d.fname
    homepage := if d.homepage = [] then f.homepage else d.homepage
    about := if d.about = [] then f.about else d.about
    checklast := timer_current }

/-- The end of `parsedocument`, with the items that are left. -/
def finish (timer_current : Int64) (rev : HTTPRequestEvent) (f : Feed) (items : List Str) : Feed :=
  if f.inlist && !f.contact.cdesc.eq contactroot then storeItems timer_current f items
  else
    let bfeed := (getrword rev.url [slash]).2
    { f with nick := (getrword bfeed [slash]).1, workpage := rev.url }

/-- `rsshook::parsedocument(rev, c)`. -/
def parsedocument (siconv : Str → Str → Str → Str) (convertto : Str) (timer_current : Int64)
    (rev : HTTPRequestEvent) (f : Feed) : Except Fault Feed :=
  match readDocument siconv convertto rev with
  | .error e => .error e
  | .ok d =>
    match d.items with
    | none => .ok (finish timer_current rev (setinfo timer_current d f) [])
    | some items =>
      match getevents f.file f.contact 0 with
      | .error e => .error e
      | .ok events =>
        .ok (finish timer_current rev (setinfo timer_current d f) (unseen events items))

end CenterIM.RssFeed
