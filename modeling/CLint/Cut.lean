namespace CLint.Cut

variable {α β : Type}

-- A cut of a list is what some reader takes from its front and what it leaves. With `keep`, one
-- more element is taken, from before the rest.
def keep (a : α) (r : List α × β) : List α × β :=
  (a :: r.1, r.2)

@[simp]
theorem fst_keep (a : α) (r : List α × β) : (keep a r).1 = a :: r.1 :=
  rfl

@[simp]
theorem snd_keep (a : α) (r : List α × β) : (keep a r).2 = r.2 :=
  rfl

end CLint.Cut
