import Schemata.Yaml.Scalar
import Schemata.Yaml.Text

/-!
# Reading a document

`Yaml.read` reads the single document of a text: block sequences and mappings, flow collections,
scalars, anchors and aliases, tags, and document markers. A mapping has no two equal keys. A key
that is not introduced by a question mark stands on one line and is at most 1024 characters long.

Nodes nest as the text does, so the number of its characters bounds the depth of reading.
-/

namespace Schemata.Yaml

/-- Anchor and tag of a node. -/
structure Props where
  anchor : Option String
  tag : Option String
deriving DecidableEq, Repr

def Props.none : Props := ⟨.none, .none⟩

/-- A node before its tag is applied. -/
inductive Inline where
  | reference (data : Yaml)
  | scalar (isPlain : Bool) (text : String)
  | collection (data : Yaml)

/-- Whether a colon may follow a node in a flow collection directly. -/
def Inline.isClosed : Inline → Bool
  | reference _ => false
  | scalar isPlain _ => !isPlain
  | collection _ => true

/-- Give a name to a datum. -/
def define (anchor : Option String) (d : Yaml) : ReadM Unit :=
  match anchor with
  | some name => modify fun r => { r with anchors := (name, d) :: r.anchors }
  | none => pure ()

/-- Put two sets of properties of one node together. -/
def combine (outer inner : Props) : ReadM Props :=
  if (outer.anchor.isSome && inner.anchor.isSome) || (outer.tag.isSome && inner.tag.isSome) then
    malformed
  else pure ⟨outer.anchor.or inner.anchor, outer.tag.or inner.tag⟩

/-- The datum of a node with its properties. -/
def finish (props : Props) (node : Inline) : ReadM Yaml := do
  match node with
  | .reference d => if props = .none then pure d else malformed
  | .collection d =>
    define props.anchor d
    pure d
  | .scalar isPlain content =>
    let kind := match props.tag with
      | some tag => ScalarKind.ofTag tag
      | none => if isPlain then .any else .text
    let d := ofScalar kind content
    define props.anchor d
    pure d

/-- Whether a character may stand in a tag. -/
def isTagChar (c : Char) : Bool :=
  c.isAlphanum || c ∈ "-#;/?:@&=+$_.!~*'()%".toList

/-- The handle of a tag, up to its last exclamation mark, and what follows. -/
def splitTag (source : List Char) : List Char × List Char :=
  let suffix := (source.reverse.takeWhile (· ≠ '!')).reverse
  (source.take (source.length - suffix.length), suffix)

/-- The full name of a tag that is written with a handle. A lone exclamation mark is a tag of its
own. -/
def tagName (source : List Char) : ReadM String := do
  if source = ['!'] then return "!"
  let (handle, suffix) := splitTag source
  if suffix.isEmpty then malformed
  match (← get).handles.lookup (String.ofList handle) with
  | some start => pure (start ++ String.ofList suffix)
  | none => if handle = ['!'] then pure (String.ofList source) else malformed

/-- Read anchors and tags; a blank, a line end or, in a flow collection, an indicator follows
each. -/
def props (flow : Bool) : Nat → Props → ReadM Props
  | 0, found => pure found
  | fuel + 1, found => do
    let cs ← ahead
    let closed (rest : List Char) : Bool := atGap rest || (flow && rest.head?.any isFlowMark)
    match cs with
    | '&' :: rest =>
      let name := rest.takeWhile fun c => !isBlank c && c ≠ '\n' && !isFlowMark c
      if name.isEmpty || found.anchor.isSome || !closed (rest.drop name.length) then malformed
      skip (name.length + 1)
      skipBlanks
      props flow fuel { found with anchor := some (String.ofList name) }
    | '!' :: '<' :: rest =>
      let name := rest.takeWhile fun c => !isBlank c && c ≠ '\n' && c ≠ '>'
      let after := rest.drop name.length
      if after.head? ≠ some '>' || found.tag.isSome || !closed (after.drop 1) then malformed
      if name = ['!'] || name = ['!', '!'] then malformed
      skip (name.length + 3)
      skipBlanks
      props flow fuel { found with tag := some (String.ofList name) }
    | '!' :: _ =>
      let name := cs.takeWhile isTagChar
      if found.tag.isSome || !closed (cs.drop name.length) then malformed
      let tag ← tagName name
      skip name.length
      skipBlanks
      props flow fuel { found with tag := some tag }
    | _ => pure found

/-- Read an alias behind its asterisk. -/
def readAlias : ReadM Yaml := do
  let name := (← ahead).takeWhile fun c => !isBlank c && c ≠ '\n' && !isFlowMark c
  if name.isEmpty then malformed
  skip name.length
  let r ← get
  match r.anchors.lookup (String.ofList name) with
  | some d => pure d
  | none =>
    set { r with dangling := r.dangling.or (some (String.ofList name)) }
    pure .null

/-- Whether a plain scalar may begin with these characters. -/
def beginsPlain (flow : Bool) : List Char → Bool
  | [] => false
  | c :: cs =>
    if c = '-' || c = '?' || c = ':' then !(atGap cs || (flow && cs.head?.any isFlowMark))
    else !(isBlank c || c = '\n' || c ∈ ",[]{}#&*!|>'\"%@\x60".toList)

/-- Add an entry to a mapping, unless its key is there. -/
def addEntry (entries : List (Yaml × Yaml)) (key value : Yaml) : ReadM (List (Yaml × Yaml)) :=
  if entries.any fun e => sameKey e.1 key then malformed
  else pure (entries ++ [(key, value)])

/-- Whether a value indicator stands here inside a flow collection. -/
def atFlowColon (closed : Bool) : List Char → Bool
  | ':' :: cs => closed || atGap cs || cs.head?.any isFlowMark
  | _ => false

/-- Whether the indicator of an explicit key stands here inside a flow collection. -/
def atFlowQuestion : List Char → Bool
  | '?' :: cs => atGap cs || cs.head?.any isFlowMark
  | _ => false

/-- Whether a block indicator stands here. -/
def atIndicator (mark : Char) : List Char → Bool
  | c :: cs => c = mark && atGap cs
  | [] => false

mutual

/-- Read a scalar, alias or flow collection. `depth` counts the flow collections around it. -/
def inline (least depth : Nat) (anchor : Option String) : Nat → ReadM Inline
  | 0 => malformed
  | fuel + 1 => do
    let flow := 0 < depth
    let cs ← ahead
    match cs with
    | '*' :: _ =>
      skip 1
      pure (.reference (← readAlias))
    | '"' :: _ =>
      skip 1
      pure (.scalar false (String.ofList (← doubleQuoted least (cs.length + 1) 0 [])))
    | '\'' :: _ =>
      skip 1
      pure (.scalar false (String.ofList (← singleQuoted least (cs.length + 1) [])))
    | '[' :: _ =>
      skip 1
      define anchor (.list [])
      pure (.collection (← flowSequence least (depth + 1) [] fuel))
    | '{' :: _ =>
      skip 1
      define anchor (.mapping [])
      pure (.collection (← flowMapping least (depth + 1) [] fuel))
    | _ =>
      if beginsPlain flow cs then pure (.scalar true (← plain flow least)) else malformed
termination_by structural fuel => fuel

/-- Read a node of a flow collection, and tell whether a colon may follow it directly. A node
without content is null. -/
def flowNode (least depth : Nat) : Nat → ReadM (Yaml × Bool)
  | 0 => malformed
  | fuel + 1 => do
    let p ← props true 3 .none
    skipFlowSpace least depth
    let cs ← ahead
    let empty := match cs with
      | ',' :: _ | ']' :: _ | '}' :: _ => true
      | cs => atFlowColon false cs
    if empty then pure (← finish p (.scalar true ""), false)
    else
      let node ← inline least depth p.anchor fuel
      pure (← finish p node, node.isClosed)
termination_by structural fuel => fuel

/-- Read the value of a flow entry behind its colon. -/
def flowValue (least depth : Nat) : Nat → ReadM Yaml
  | 0 => malformed
  | fuel + 1 => do
    skip 1
    skipFlowSpace least depth
    pure (← flowNode least depth fuel).1
termination_by structural fuel => fuel

/-- Read the rest of a flow sequence, after the items read before. -/
def flowSequence (least depth : Nat) (items : List Yaml) : Nat → ReadM Yaml
  | 0 => malformed
  | fuel + 1 => do
    skipFlowSpace least depth
    match ← ahead with
    | ']' :: _ =>
      skip 1
      pure (.list items)
    | ',' :: _ | '}' :: _ => malformed
    | cs =>
      let explicit := atFlowQuestion cs
      if explicit then
        skip 1
        skipFlowSpace least depth
      let line := (← get).line
      let offset := (← get).offset
      let (first, closed) ← flowNode least depth fuel
      skipFlowSpace least depth
      let item ←
        if atFlowColon closed (← ahead) then do
          if !explicit && ((← get).line ≠ line || offset + 1024 < (← get).offset) then malformed
          let value ← flowValue least depth fuel
          pure (ofEntries [(first, value)])
        else pure (if explicit then ofEntries [(first, .null)] else first)
      skipFlowSpace least depth
      match ← ahead with
      | ',' :: _ =>
        skip 1
        flowSequence least depth (items ++ [item]) fuel
      | ']' :: _ => flowSequence least depth (items ++ [item]) fuel
      | _ => malformed
termination_by structural fuel => fuel

/-- Read the rest of a flow mapping, after the entries read before. -/
def flowMapping (least depth : Nat) (entries : List (Yaml × Yaml)) : Nat → ReadM Yaml
  | 0 => malformed
  | fuel + 1 => do
    skipFlowSpace least depth
    match ← ahead with
    | '}' :: _ =>
      skip 1
      pure (ofEntries entries)
    | ',' :: _ | ']' :: _ => malformed
    | cs =>
      if atFlowQuestion cs then
        skip 1
        skipFlowSpace least depth
      let (key, closed) ← flowNode least depth fuel
      skipFlowSpace least depth
      let value ← if atFlowColon closed (← ahead) then flowValue least depth fuel else pure .null
      let entries ← addEntry entries key value
      skipFlowSpace least depth
      match ← ahead with
      | ',' :: _ =>
        skip 1
        flowMapping least depth entries fuel
      | '}' :: _ => flowMapping least depth entries fuel
      | _ => malformed
termination_by structural fuel => fuel

end

/-- Where the content of a block node begins: properties on lines before it, properties on its own
line, whether it is the first on its line, whether a tab stands right before it, and the column of
what stands first. -/
structure NodeStart where
  outer : Props
  inner : Props
  fresh : Bool
  tabbed : Bool
  column : Nat
  isEmpty : Bool

/-- Whether a token in a column belongs to a node inside `parent`. A sequence that is the value of a
mapping entry may stand in the column of the mapping. -/
def belongs (least : Nat) (indentless : Bool) (column : Nat) (cs : List Char) : Bool :=
  least ≤ column || (indentless && column + 1 = least && atIndicator '-' cs)

/-- Whether a tab may stand between the indentation of a line and its first token: behind enough
spaces, and before a flow collection that is the whole document. -/
def mayFollowTab (least indent : Nat) (cs : List Char) : Bool :=
  max least 1 ≤ indent || (least = 0 && (cs.head? = some '[' || cs.head? = some '{'))

/-- Whether an anchor or a tag stands here. -/
def atProps (cs : List Char) : Bool := cs.head? = some '&' || cs.head? = some '!'

/-- Move to the content of a block node. `compact` tells that the node is one of a block collection
and may begin on the present line. -/
def nodeStart (least : Nat) (indentless compact : Bool) : Nat → Props → Bool → ReadM NodeStart
  | 0, _, _ => malformed
  | fuel + 1, outer, fresh => do
    let fresh := (← skipToToken) || fresh
    let r ← get
    if (← atEnd) || (fresh && !belongs least indentless r.column r.rest) then
      pure ⟨outer, .none, fresh, false, r.column, true⟩
    else
      if r.tabbed && fresh && !mayFollowTab least r.indent r.rest then malformed
      if r.tabbed && (fresh || compact) && atProps r.rest then malformed
      let inner ← props false 3 .none
      if inner = .none then pure ⟨outer, .none, fresh, r.tabbed, r.column, false⟩
      else if ← skipToToken then nodeStart least indentless compact fuel (← combine outer inner) true
      else if ← atEnd then pure ⟨← combine outer inner, .none, fresh, r.tabbed, r.column, true⟩
      else pure ⟨outer, inner, fresh, r.tabbed, r.column, false⟩

/-- Whether the colon of an implicit key stands here, on the line on which the key began. -/
def atKeyColon (line offset : Nat) : ReadM Bool := do
  skipBlanks
  let r ← get
  if atIndicator ':' r.rest then
    if r.line ≠ line || offset + 1024 < r.offset then malformed else pure true
  else pure false

/-- Read the key of an entry of a block mapping, up to its colon. -/
def implicitKey (least fuel : Nat) : ReadM Yaml := do
  let r ← get
  let p ← props false 3 .none
  if atIndicator ':' (← ahead) then finish p (.scalar true "")
  else
    let node ← inline least 0 p.anchor fuel
    if ← atKeyColon r.line r.offset then finish p node else malformed

mutual

/-- Read a block node whose lines are indented by at least `least`. `compact` tells that a block
collection may begin on the present line. -/
def blockNode (least : Nat) (indentless compact : Bool) (fresh : Bool) : Nat → ReadM Yaml
  | 0 => malformed
  | fuel + 1 => do
    let s ← nodeStart least indentless compact (fuel + 1) .none fresh
    if s.isEmpty then finish s.outer (.scalar true "")
    else
      let starts := (s.fresh || compact) && !s.tabbed
      let cs ← ahead
      if atIndicator '-' cs then
        if !starts || s.inner ≠ .none then malformed
        define s.outer.anchor (.list [])
        let d ← blockSequence s.column [] fuel
        define s.outer.anchor d
        pure d
      else if atIndicator '?' cs then
        if !starts || s.inner ≠ .none then malformed
        define s.outer.anchor (.mapping [])
        let d ← blockMapping s.column [] fuel
        define s.outer.anchor d
        pure d
      else if atIndicator ':' cs then
        if !starts then malformed
        define s.outer.anchor (.mapping [])
        let key ← finish s.inner (.scalar true "")
        let d ← blockValue s.column [] key fuel
        define s.outer.anchor d
        pure d
      else
        match cs with
        | '|' :: _ | '>' :: _ =>
          skip 1
          let text ← blockScalar (cs.head? = some '>') least
          finish (← combine s.outer s.inner) (.scalar false text)
        | _ =>
          let r ← get
          let node ← inline least 0 (s.inner.anchor.or s.outer.anchor) fuel
          if ← atKeyColon r.line r.offset then
            if !starts then malformed
            let key ← finish s.inner node
            define s.outer.anchor (.mapping [])
            let d ← blockValue s.column [] key fuel
            define s.outer.anchor d
            pure d
          else
            let d ← finish (← combine s.outer s.inner) node
            endLine
            pure d
termination_by structural fuel => fuel

/-- Read the items of a block sequence in a column. -/
def blockSequence (column : Nat) (items : List Yaml) : Nat → ReadM Yaml
  | 0 => malformed
  | fuel + 1 => do
    skip 1
    let item ← blockNode (column + 1) false true false fuel
    let items := items ++ [item]
    let _ ← skipToToken
    let r ← get
    if ← atEnd then pure (.list items)
    else if r.tabbed then malformed
    else if r.column < column then pure (.list items)
    else if r.column = column then
      if atIndicator '-' r.rest then blockSequence column items fuel else pure (.list items)
    else malformed
termination_by structural fuel => fuel

/-- Read the entries of a block mapping in a column, after those read before. -/
def blockMapping (column : Nat) (entries : List (Yaml × Yaml)) : Nat → ReadM Yaml
  | 0 => malformed
  | fuel + 1 => do
    let _ ← skipToToken
    let r ← get
    if ← atEnd then pure (ofEntries entries)
    else if r.tabbed || column < r.column then malformed
    else if r.column < column then pure (ofEntries entries)
    else if atIndicator '?' r.rest then
      skip 1
      let key ← blockNode (column + 1) false true false fuel
      let _ ← skipToToken
      let r ← get
      if !(← atEnd) && r.column = column && atIndicator ':' r.rest then
        skip 1
        let value ← blockNode (column + 1) true true false fuel
        blockMapping column (← addEntry entries key value) fuel
      else blockMapping column (← addEntry entries key .null) fuel
    else
      let key ← implicitKey (column + 1) fuel
      blockValue column entries key fuel
termination_by structural fuel => fuel

/-- Read the value of an entry, whose key was read up to its colon, and the entries behind it. -/
def blockValue (column : Nat) (entries : List (Yaml × Yaml)) (key : Yaml) : Nat → ReadM Yaml
  | 0 => malformed
  | fuel + 1 => do
    skip 1
    let value ← blockNode (column + 1) true false false fuel
    blockMapping column (← addEntry entries key value) fuel
termination_by structural fuel => fuel

end

/-- Words of a line, which blanks separate; a comment behind a blank ends them. -/
def words (line : List Char) : List (List Char) :=
  ((line.splitBy fun a b => isBlank a = isBlank b).filter (!·.any isBlank)).takeWhile
    (·.head? ≠ some '#')

/-- Whether a text is a version number: two numbers and a point between them. -/
def isVersion (cs : List Char) : Bool :=
  let major := cs.takeWhile Char.isDigit
  match cs.drop major.length with
  | '.' :: minor => !major.isEmpty && !minor.isEmpty && minor.all Char.isDigit
  | _ => false

/-- Obey a directive. Unknown ones mean nothing. -/
def directive (line : List Char) : ReadM Unit :=
  match (words line).map String.ofList with
  | ["%YAML", version] => if isVersion version.toList then pure () else malformed
  | "%YAML" :: _ => malformed
  | ["%TAG", handle, start] =>
    modify fun r => { r with handles := (handle, start) :: r.handles }
  | "%TAG" :: _ => malformed
  | _ => pure ()

/-- Skip directives before a document; true if there were any. -/
def directives : Nat → Bool → ReadM Bool
  | 0, found => pure found
  | fuel + 1, found => do
    let _ ← skipToToken
    let r ← get
    if r.column = 0 && r.rest.head? = some '%' then
      let line := r.rest.takeWhile (· ≠ '\n')
      directive line
      skip line.length
      directives fuel true
    else pure found

/-- Read the only document of a text. -/
def document : ReadM Yaml := do
  let fuel := (← ahead).length + 2
  let directed ← directives fuel false
  let r ← get
  let marked := r.column = 0 && atMarker r.rest && r.rest.head? = some '-'
  if directed && !marked then malformed
  if marked then skip 3
  let d ← blockNode 0 false (!marked) (!marked) (8 * fuel)
  let _ ← skipToToken
  let r ← get
  if r.rest.isEmpty then pure d
  else if r.column = 0 && atMarker r.rest && r.rest.head? = some '.' then
    skip 3
    endLine
    let _ ← skipToToken
    if (← ahead).isEmpty then pure d else malformed
  else malformed

/-- A text with line ends of one character, without a mark of its byte order in front. -/
def normalizeText : List Char → List Char
  | [] => []
  | '\r' :: '\n' :: cs => '\n' :: normalizeText cs
  | c :: cs => c :: normalizeText cs

/-- What is said of an alias without an anchor before it. -/
def danglingAlias (name : String) : String :=
  "Unresolved alias (the anchor must be set before the alias): " ++ name

/-- The data of a text that consists of one document. -/
def read : Reader := fun text =>
  let cs := match text.toList with
    | c :: cs => if c.toNat = 0xFEFF then cs else c :: cs
    | [] => []
  match document.run (Reading.start (normalizeText cs)) with
  | .error place => .error (.malformed "unexpected text" (some ⟨place.line, place.column⟩))
  | .ok (d, r) =>
    match r.dangling with
    | some name => .error (.raised (danglingAlias name))
    | none => .ok d

end Schemata.Yaml
