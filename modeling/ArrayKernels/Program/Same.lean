import ArrayKernels.Program.Basic

/-! Structural equality of programs. Constants compare as numbers, so a program with a NaN
differs from itself and the two floating-point zeros are equal. -/
namespace ArrayKernels

/-- Lists of one length whose elements agree in order. -/
def sameAll {α : Type} (eq : α → α → Bool) : List α → List α → Bool
  | [], [] => true
  | a :: as, b :: bs => eq a b && sameAll eq as bs
  | _, _ => false

def samePair {α β : Type} (eq : α → α → Bool) (eq' : β → β → Bool) (a b : α × β) : Bool :=
  eq a.1 b.1 && eq' a.2 b.2

def Ty.same : Ty → Ty → Bool
  | scalar a, scalar b => a == b
  | array a shape u, array b shape' u' => a == b && sameAll Operand.same shape shape' && u == u'
  | mem size space, mem size' space' => size.same size' && space == space'
  | _, _ => false

def Binder.same (a b : Binder) : Bool := a.name == b.name && a.ty.same b.ty && a.place == b.place

def Pattern.same (a b : Pattern) : Bool :=
  sameAll Binder.same a.context b.context && sameAll Binder.same a.values b.values

def LaunchSize.same (a b : LaunchSize) : Bool := sameAll Operand.same a.operands b.operands

def MapInput.same (a b : MapInput) : Bool :=
  a.param.same b.param && a.array == b.array && sameAll Operand.same a.indices b.indices

def GroupResult.same : GroupResult → GroupResult → Bool
  | row a, row b => a.same b
  | write i a, write j b => i.same j && a.same b
  | chunks d w p a, chunks d' w' p' a' => d == d' && w.same w' && p.same p' && a == a'
  | _, _ => false

mutual

def Exp.same : Exp → Exp → Bool
  | .operand x, .operand x' => x.same x'
  | .binary op x y, .binary op' x' y' => op == op' && x.same x' && y.same y'
  | .compare op x y, .compare op' x' y' => op == op' && x.same x' && y.same y'
  | .index a is, .index a' is' => a == a' && sameAll Operand.same is is'
  | .update a is v, .update a' is' v' => a == a' && sameAll Operand.same is is' && v.same v'
  | .iota n s d, .iota n' s' d' => n.same n' && s.same s' && d.same d'
  | .replicate s v, .replicate s' v' => sameAll Operand.same s s' && v.same v'
  | .reshape s a, .reshape s' a' => sameAll Operand.same s s' && a == a'
  | .rearrange p a, .rearrange p' a' => p == p' && a == a'
  | .copy a, .copy a' => a == a'
  | .alloc n s, .alloc n' s' => n.same n' && s == s'
  | .branch c t f r, .branch c' t' f' r' =>
    c.same c' && t.same t' && f.same f' && sameAll Ty.same r r'
  | .loop c v i n b, .loop c' v' i' n' b' =>
    sameAll (samePair Binder.same Operand.same) c c' && sameAll (samePair Binder.same Operand.same) v v'
      && i == i' && n.same n' && b.same b'
  | .launch k, .launch k' => k.same k'
  | _, _ => false

def Stm.same : Stm → Stm → Bool
  | ⟨p, c, e⟩, ⟨p', c', e'⟩ => p.same p' && c == c' && e.same e'

def sameStms : List Stm → List Stm → Bool
  | [], [] => true
  | s :: ss, s' :: ss' => s.same s' && sameStms ss ss'
  | _, _ => false

def Body.same : Body → Body → Bool
  | ⟨ss, r⟩, ⟨ss', r'⟩ => sameStms ss ss' && sameAll Operand.same r r'

def Lambda.same : Lambda → Lambda → Bool
  | ⟨p, b, r⟩, ⟨p', b', r'⟩ => sameAll Binder.same p p' && b.same b' && sameAll Ty.same r r'

def Kernel.same : Kernel → Kernel → Bool
  | .map ⟨c, w, t, s, i, r, b⟩, .map ⟨c', w', t', s', i', r', b'⟩ =>
    c == c' && w.same w' && t == t' && sameAll (samePair (· == ·) Operand.same) s s'
      && sameAll MapInput.same i i' && sameAll (samePair Ty.same (· == ·)) r r' && b.same b'
  | .scan ⟨c, w, s, l, f, n, a⟩, .scan ⟨c', w', s', l', f', n', a'⟩ =>
    c == c' && w.same w' && s.same s' && l.same l' && f.same f' && sameAll Operand.same n n' && a == a'
  | .chunked ⟨c, w, s, d, l, a⟩, .chunked ⟨c', w', s', d', l', a'⟩ =>
    c == c' && w.same w' && s.same s' && d == d' && l.same l' && a == a'
  | .scatter ⟨c, w, l, a, d⟩, .scatter ⟨c', w', l', a', d'⟩ =>
    c == c' && w.same w' && l.same l' && a == a' && sameAll (samePair Operand.same (· == ·)) d d'
  | .group ⟨c, s, t, r, b⟩, .group ⟨c', s', t', r', b'⟩ =>
    c == c' && s.same s' && t.names == t'.names && sameAll Ty.same r r' && b.same b'
  | .numGroups, .numGroups => true
  | .groupSize, .groupSize => true
  | _, _ => false

def GroupStm.same : GroupStm → GroupStm → Bool
  | .split s c d w p a, .split s' c' d' w' p' a' =>
    s.same s' && sameAll Binder.same c c' && d == d' && w.same w' && p.same p' && a == a'
  | .thread p o b, .thread p' o' b' =>
    p.same p' && sameAll Operand.same o.toList o'.toList && b.same b'
  | .reduce p w l i, .reduce p' w' l' i' =>
    p.same p' && w.same w' && l.same l' && sameAll (samePair Operand.same (· == ·)) i i'
  | _, _ => false

def sameGroupStms : List GroupStm → List GroupStm → Bool
  | [], [] => true
  | s :: ss, s' :: ss' => s.same s' && sameGroupStms ss ss'
  | _, _ => false

def GroupBody.same : GroupBody → GroupBody → Bool
  | ⟨ss, r⟩, ⟨ss', r'⟩ => sameGroupStms ss ss' && sameAll GroupResult.same r r'

end

def FunDecl.same (f g : FunDecl) : Bool :=
  f.name == g.name && sameAll Binder.same f.params g.params && sameAll Ty.same f.ret g.ret
    && f.body.same g.body

def Program.same (p q : Program) : Bool := sameAll FunDecl.same p.funs q.funs

end ArrayKernels
