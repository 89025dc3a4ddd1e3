import CLint.Outline

namespace CLint

-- A cut of a list to which more is added at the end: what is left is longer by it.
def Cut.followed {α β : Type} (r : α × List β) (more : List β) : α × List β :=
  (r.1, r.2 ++ more)

-- The last of the elements with some property, with what stands before and behind it.
theorem append_of_getLast?_filter {α : Type} {p : α → Bool} {l : List α} {a : α}
    (h : (l.filter p).getLast? = some a) :
    p a ∧ ∃ as bs, l = as ++ a :: bs ∧ ∀ b ∈ bs, p b = false := by
  rw [List.getLast?_eq_head?_reverse, ← List.filter_reverse, List.head?_filter,
    List.find?_eq_some_iff_append] at h
  obtain ⟨ha, bs, as, he, hbs⟩ := h
  refine ⟨ha, as.reverse, bs.reverse, ?_, fun b hb => ?_⟩
  · rw [← List.reverse_reverse l, he]
    simp
  · simpa using hbs b (List.mem_reverse.mp hb)

-- How far the parts of a file move when another file is put before it: by the lines and the
-- characters of that file, by the tokens of its code, and by its comments.
structure Move where
  lines : Nat
  offset : Nat
  tokens : Nat
  comments : Nat

namespace Move

def place (m : Move) (p : Place) : Place where
  line := p.line + m.lines
  column := p.column
  offset := p.offset + m.offset

def span (m : Move) (s : Span) : Span where
  start := m.place s.start
  stop := m.place s.stop

def token (m : Move) (t : Token) : Token where
  lexeme := t.lexeme
  span := m.span t.span

def run (m : Move) (r : Run) : Run where
  first := r.first + m.tokens
  last := r.last + m.tokens

def declaration (m : Move) (d : Declaration Span) : Declaration Span :=
  { d.map m.span with
    bodyRun := d.bodyRun.map m.run
    comment := d.comment.map (· + m.comments) }

def block (m : Move) (b : ControlBlock Span) : ControlBlock Span :=
  { b.map m.span with conditionRun := b.conditionRun.map m.run }

def comment (m : Move) (c : Comment) : Comment :=
  { c with span := m.span c.span }

def directive (m : Move) (d : Directive) : Directive where
  name := d.name
  span := m.span d.span

def diagnostic (m : Move) (d : Diagnostic) : Diagnostic where
  problem := d.problem
  span := m.span d.span

def region (m : Move) (r : Nat × Nat) : Nat × Nat :=
  (r.1 + m.offset, r.2 + m.offset)

end Move
end CLint
