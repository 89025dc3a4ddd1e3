import CLint.Control.Block
import CLint.Diagnostic
import CLint.Directive

namespace CLint

-- What a file is made of, as far as its tokens tell. The code are all tokens but blanks, comments
-- and directives; runs of lexemes refer to it.
structure Outline where
  source : Source
  code : Array Token
  declarations : List (Declaration Span)
  blocks : List (ControlBlock Span)
  comments : List Comment
  directives : List Directive
  diagnostics : List Diagnostic
  constantRegions : List (Nat × Nat)

namespace Outline

def tokenAt (code : Array Token) (n : Nat) : Token :=
  code.getD n default

def locate (code : Array Token) (r : Run) : Span :=
  (tokenAt code r.first).span.cover (tokenAt code r.last).span

-- A declaration at its place, with the comment that stands before its first token.
def located (code : Array Token) (leads : Array (Option Nat)) (d : Declaration Run) :
    Declaration Span :=
  { d.map (locate code) with comment := (leads[d.span.first]?).join }

-- Each batch is numbered, and each of its declarations is given that number as its group.
def grouped {σ : Type} (batches : List (List (Declaration σ))) : List (Declaration σ) :=
  (batches.zipIdx 1).flatMap fun (batch, n) => batch.map ({ · with group := n })

-- A comment is about the first declaration that it stands before.
def ownerOf (declarations : List (Declaration Span)) (comment : Nat) : Option String :=
  (declarations.find? (·.comment = some comment)).map (·.name)

-- A declaration keeps its comment only if that is about a declaration of this name.
def keepComment (declarations : List (Declaration Span)) (d : Declaration Span) :
    Declaration Span :=
  if d.comment.bind (ownerOf declarations) = some d.name then d else { d with comment := none }

def declarationLe (a b : Declaration Span) : Bool :=
  a.span.start.offset < b.span.start.offset ||
    (a.span.start.offset = b.span.start.offset && a.span.stop.offset ≤ b.span.stop.offset)

-- A block comes before the blocks in it, even if they start at the same place.
def blockLe (a b : ControlBlock Span) : Bool :=
  a.span.start.offset < b.span.start.offset ||
    (a.span.start.offset = b.span.start.offset && b.span.stop.offset ≤ a.span.stop.offset)

-- The names that the declarations make constants of: enumerators and what is defined without
-- parameters.
def constantNames {σ : Type} (declarations : List (Declaration σ)) : List String :=
  (declarations.filter fun d => d.isEnumerator || (d.kind = .define && !d.isFunctionLike)).map
    (·.name)

-- The numbers of the lexemes before which a comment announces a fall through.
def announced (code : List Marked) (comments : List Comment) : List Nat :=
  (comments.filter Comment.announcesFallthrough).map fun c =>
    code.countP (·.token.offset < c.span.start.offset)

-- A comment that is not terminated hides the end of the file, so that nothing else is reported.
def diagnosticsOf (comments : List Comment) (problems : List Diagnostic) : List Diagnostic :=
  match comments.find? (!·.terminated) with
  | some c => [⟨.openComment, c.span⟩]
  | none => problems

end Outline

-- A file taken apart: its comments, its directives and its code.
structure Parts where
  comments : List Comment
  directives : List (Marked × List Marked)
  code : List Marked

namespace Parts

open Outline

def ofTokens (tokens : List Token) : Parts :=
  let gathering := Gathering.ofTokens tokens
  let divided := Divided.ofMarked none none gathering.markedList
  { comments := gathering.commentList
    directives := divided.directives
    code := divided.code }

def tokens (p : Parts) : Array Token :=
  (p.code.map (·.token)).toArray

def lexemes (p : Parts) : List Lexeme :=
  p.code.map (·.token.lexeme)

def sites (p : Parts) : List Site :=
  Stmt.listSites 0 (Stmt.readFile p.lexemes)

def batches (p : Parts) : List Batch :=
  p.sites.flatMap Site.batches

def definitions (p : Parts) : List (Declaration Span) :=
  p.directives.filterMap fun (hash, rest) => Directive.definition? hash rest

-- All declarations before they are sorted, first those that directives make.
def declarations (p : Parts) : List (Declaration Span) :=
  let code := p.tokens
  let leads := (p.code.map (·.comment)).toArray
  grouped <| p.definitions.map ([·]) ++
    p.batches.map fun b => b.declarations.map (located code leads)

def blocks (p : Parts) : List (ControlBlock Run) :=
  p.sites.flatMap
    (Site.controlBlocks (constantNames p.declarations) (announced p.code p.comments))

def problems (p : Parts) : List (Problem × Nat) :=
  Site.problemsOf p.sites

def regions (p : Parts) : List Run :=
  p.batches.filterMap (·.region)

end Parts

namespace Outline

def ofSource (source : Source) : Outline :=
  let parts := Parts.ofTokens source.tokens
  let code := parts.tokens
  let declarations := parts.declarations
  { source := source
    code := code
    declarations := (declarations.map (keepComment declarations)).mergeSort declarationLe
    blocks := (parts.blocks.map (·.map (locate code))).mergeSort blockLe
    comments := parts.comments.zipIdx.map fun (c, n) =>
      { c with attachedTo := ownerOf declarations n }
    directives := parts.directives.map fun (hash, rest) => Directive.ofTokens hash rest
    diagnostics := diagnosticsOf parts.comments <|
      parts.problems.map fun (p, n) => ⟨p, (tokenAt code n).span⟩
    constantRegions := parts.regions.map fun r =>
      ((locate code r).start.offset, (locate code r).stop.offset) }

def functions (o : Outline) : List (Declaration Span) :=
  o.declarations.filter (·.kind = .function)

def inConstantRegion (o : Outline) (offset : Nat) : Bool :=
  o.constantRegions.any fun (first, stop) => first ≤ offset && offset < stop

def commentOf (o : Outline) (d : Declaration Span) : Option Comment :=
  d.comment.bind (o.comments[·]?)

def slice (o : Outline) (s : Span) : String :=
  o.source.slice s

end Outline
end CLint
