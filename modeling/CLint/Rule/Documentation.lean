import CLint.Rule.Naming

namespace CLint.Rule

def hasBrief (c : Comment) : Bool :=
  c.hasTag ["brief"]

-- The functions of which some declaration has a comment that `p` holds of.
def functionsWith (o : Outline) (p : Comment → Bool) : List String :=
  (o.functions.filter fun d => (o.commentOf d).any p).map (·.name)

def parameterRemarks (d : Declaration Span) (c : Comment) : List Remark :=
  let missing := d.parameters.filter fun p => p.name ≠ "" && !c.params.contains p.name
  let unknown := c.params.filter fun name => !(d.parameters.map (·.name)).contains name
  missing.map (fun p =>
    .onSpan p.span s!"parameter '{p.name}' of '{d.name}' is not documented with @param"
      s!"Add '@param {p.name} <description>'.") ++
  unknown.map fun name =>
    .onSpan c.span s!"@param '{name}' does not match any parameter of '{d.name}'"

def functionDocRemarks (o : Outline) (documented : List String) (d : Declaration Span) :
    List Remark :=
  match o.commentOf d with
  | none =>
    if documented.contains d.name then []
    else [.onSpan d.span s!"function '{d.name}' has no documentation comment"
      "Add a /** @brief ... */ block above the function."]
  | some c =>
    let brief :=
      if hasBrief c then []
      else [Remark.onSpan c.span s!"documentation of '{d.name}' is missing @brief"]
    brief ++ parameterRemarks d c

def functionDoc : Rule where
  id := "function-doc"
  title := "FunctionDocRule"
  description := "Functions carry a comment with @brief and an @param for each named parameter."
  packs := [.comments, .doxygen]
  check _ o := .ok (o.functions.flatMap (functionDocRemarks o (functionsWith o hasBrief)))

def returnsVoid (d : Declaration Span) : Bool :=
  (Text.words d.typeText.toList).contains "void".toList && !d.typeText.toList.contains '*'

def functionReturnDoc : Rule where
  id := "function-return-doc"
  title := "FunctionReturnDocRule"
  description := "Documented functions that return a value describe it with @return."
  packs := [.comments, .doxygen]
  check _ o :=
    .ok (o.functions.filterMap fun d =>
      match o.commentOf d with
      | none => none
      | some c =>
        if returnsVoid d || c.hasTag ["return", "returns", "retval"] then none
        else some (.onSpan c.span s!"documentation of '{d.name}' is missing @return"
          "Describe the returned value with '@return'."))

-- The header is the first comment, if that stands before all code and directives.
def fileHeader? (o : Outline) : Option Comment :=
  match o.comments with
  | [] => none
  | c :: _ =>
    let starts := (o.code[0]?.map (·.offset)).toList ++
      (o.directives.head?.map (·.span.start.offset)).toList
    if starts.any (· < c.span.start.offset) || !c.isDoxygen then none else some c

-- The ending of a file name is what its last dot begins, unless that stands first or last.
def isSourcePath (path : String) : Bool :=
  match cutAtLastDot (Path.ofText path).name.toList with
  | some (stem, suffix) => !stem.isEmpty && suffix = ['c']
  | none => false

def headerTags (path : String) : List String :=
  ["file", "brief", "copyright"] ++ if isSourcePath path then ["requirement"] else []

def fileHeader : Rule where
  id := "file-header"
  title := "FileHeaderRule"
  description := "Files open with a Doxygen block carrying @file, @brief and @copyright."
  packs := [.doxygen]
  check _ o :=
    match fileHeader? o with
    | none =>
      .ok [.atPlace 1 1 "file has no Doxygen file header"
        "Start the file with /** @file ... @brief ... @copyright ... */."]
    | some c =>
      match (headerTags o.source.path).filter fun tag => !c.hasTag [tag] with
      | [] => .ok []
      | missing =>
        let listed := ", ".intercalate (missing.map ("@" ++ ·))
        .ok [.onSpan c.span s!"file header is missing {listed}"
          s!"Add {listed} to the file header."]

def typeDoc : Rule where
  id := "type-doc"
  title := "TypeDocRule"
  description := "Typedefs are documented with @brief."
  packs := [.doxygen]
  check _ o :=
    .ok ((o.declarations.filter fun d =>
        d.kind = .typedef && !(o.commentOf d).any hasBrief).map fun d =>
      .onSpan d.span s!"type '{d.name}' is not documented with @brief"
        "Add a /** @brief ... */ block above the type.")

def tagOrder : List String :=
  ["file", "brief", "details", "date", "version", "param", "return", "retval", "requirement",
    "note", "warning", "see"]

-- The first tag that is out of order, with the one that it should stand before. Tags without a
-- place in the order are passed over.
def misplaced (highest : Option (Nat × String)) : List String → Option (String × String)
  | [] => none
  | tag :: tags =>
    match tagOrder.idxOf? tag with
    | none => misplaced highest tags
    | some rank =>
      match highest with
      | some (n, high) => if rank < n then some (tag, high) else misplaced (some (rank, tag)) tags
      | none => misplaced (some (rank, tag)) tags

def doxygenTagOrder : Rule where
  id := "doxygen-tag-order"
  title := "DoxygenTagOrderRule"
  description := "Doxygen tags follow the standard order: @file, @brief, @details, ... @see."
  strictness := .may
  packs := [.doxygen]
  check _ o :=
    .ok ((o.comments.filter (·.isDoxygen)).filterMap fun c =>
      (misplaced none c.tags).map fun (tag, high) =>
        .onSpan c.span s!"@{tag} should come before @{high}"
          ("Order tags as: " ++ ", ".intercalate (tagOrder.map ("@" ++ ·))))

def doxygenCommentStyle : Rule where
  id := "doxygen-comment-style"
  title := "DoxygenCommentStyleRule"
  description :=
    "All comments are Doxygen compatible (\x60\x60/** */\x60\x60, \x60\x60/*! */\x60\x60, \x60\x60///\x60\x60 or \x60\x60//!\x60\x60)."
  packs := [.doxygen]
  check _ o :=
    .ok ((o.comments.filter fun c =>
        !c.isDoxygen && c.terminated && !c.announcesFallthrough).map fun c =>
      .onSpan c.span "comment is not Doxygen compatible"
        "Use /** ... */ for blocks and /// for single lines.")

-- A field is also described by a trailing comment on the line that it ends on.
def fieldRemark (o : Outline) (trailing : List Nat) (d : Declaration Span) : Option Remark :=
  if d.kind ≠ .field || (o.commentOf d).any (·.isDoxygen) || trailing.contains d.span.stop.line then
    none
  else
    let container := (d.container.map Keyword.text).getD ""
    let label := if d.isEnumerator then "value" else "field"
    some (.onSpan d.span s!"{container} {label} '{d.name}' has no description"
      "Add a trailing ///< comment describing it.")

def fieldDoc : Rule where
  id := "field-doc"
  title := "FieldDocRule"
  description := "Struct and union fields and enum values carry a description."
  packs := [.doxygen]
  check _ o :=
    let trailing := (o.comments.filter fun c => c.isTrailing && c.isDoxygen).map
      (·.span.start.line)
    .ok (o.declarations.filterMap (fieldRemark o trailing))

-- A function with a switch in its body is taken for a state machine.
def diagramRemark (illustrated : List String) (switches : List Nat) (d : Declaration Span) :
    Option Remark :=
  match d.body with
  | none => none
  | some body =>
    if !illustrated.contains d.name &&
        switches.any (fun s => body.start.offset ≤ s && s < body.stop.offset) then
      some (.onSpan d.span s!"function '{d.name}' implements a state machine without a diagram"
        "Add a \x60\x60\x60mermaid stateDiagram-v2 block to its comment.")
    else none

def functionDiagram : Rule where
  id := "function-diagram"
  title := "FunctionDiagramRule"
  description := "Functions that implement a switch-based state machine carry a mermaid diagram."
  strictness := .should
  packs := [.doxygen]
  check _ o :=
    let switches := (o.blocks.filter (·.kind = .switchBlock)).map (·.span.start.offset)
    .ok (o.functions.filterMap (diagramRemark (functionsWith o Comment.hasDiagram) switches))

end CLint.Rule
