import Nginx.Library.LinkedTree

namespace Nginx.Rbtree

open LinkedTree

-- The nodes of ngx_rbtree_t in one heap whose labels are the colors: true is red.
abbrev Nodes := Heap Bool

-- if (node == node->parent->left) node->parent->left = temp; else node->parent->right = temp;
-- right_rotate compares with the right child first.
def relink (d : Dir) (H : Nodes) (node temp : Ptr) : Option Nodes := do
  let up ← deref node (H.parent node)
  let side ← deref up (H.child d up)
  return if node = side then H.setChild d up temp else H.setChild d.flip up temp

def replace (d : Dir) (H : Nodes) (node temp : Ptr) : Option Nodes :=
  if node = H.root then some (H.setRoot temp) else relink d H node temp

-- if (temp != sentinel) temp->parent = node;
def adopt (s : Ptr) (H : Nodes) (temp node : Ptr) : Option Nodes :=
  if temp ≠ s then deref temp (H.setParent temp node) else some H

-- The two rotations are mirror images.
def rotate (d : Dir) (s : Ptr) (H : Nodes) (node : Ptr) : Option Nodes := do
  let temp ← deref node (H.child d.flip node)
  let inner ← deref temp (H.child d temp)
  let H := H.setChild d.flip node inner
  let H ← adopt s H inner node
  let H := H.setParent temp (H.parent node)
  let H ← replace d H node temp
  return (H.setChild d temp node).setParent node temp

def leftRotate : Ptr → Nodes → Ptr → Option Nodes := rotate .left

def rightRotate : Ptr → Nodes → Ptr → Option Nodes := rotate .right

-- The loop of the insert callbacks: the node and the side where the search leaves the tree.
def descend (goLeft : Ptr → Bool) (s : Ptr) (H : Nodes) : Nat → Ptr → Option (Ptr × Dir)
  | 0, _ => none
  | n + 1, temp => do
      let d := if goLeft temp then .left else .right
      let p ← deref temp (H.child d temp)
      if p = s then return (temp, d) else descend goLeft s H n p

-- Their common end.
def attach (s : Ptr) (H : Nodes) (temp : Ptr) (d : Dir) (node : Ptr) : Option Nodes := do
  let H ← deref temp (H.setChild d temp node)
  deref node
    ((((H.setParent node temp).setChild .left node s).setChild .right node s).setLabel node true)

def insertBy (goLeft : Ptr → Bool) (fuel : Nat) (s : Ptr) (H : Nodes) (temp node : Ptr) :
    Option Nodes := do
  let (temp, d) ← descend goLeft s H fuel temp
  attach s H temp d node

-- ngx_rbtree_insert_value
def insertValue (key : Ptr → Nat) (fuel : Nat) (s : Ptr) (H : Nodes) (temp node : Ptr) : Option Nodes :=
  insertBy (fun temp => key node < key temp) fuel s H temp node

-- if (node == node->parent->right) { node = node->parent; ngx_rbtree_left_rotate(..., node); }
def straighten (d : Dir) (s : Ptr) (H : Nodes) (node parent : Ptr) : Option (Nodes × Ptr) := do
  let inner ← deref parent (H.child d.flip parent)
  if node = inner then
    let H ← rotate d s H parent
    return (H, parent)
  else return (H, node)

-- The parent becomes black, the grandparent red, and the grandparent is rotated.
def lift (d : Dir) (s : Ptr) (H : Nodes) (node : Ptr) : Option Nodes := do
  let up ← deref node (H.parent node)
  let H ← deref up (H.setLabel up false)
  let top ← deref up (H.parent up)
  let H ← deref top (H.setLabel top true)
  rotate d.flip s H top

-- One round of the re-balancing loop; d is the side of the parent below the grandparent. The
-- node to go on with is returned.
def insertRound (d : Dir) (s : Ptr) (H : Nodes) (node parent grand : Ptr) : Option (Nodes × Ptr) := do
  let temp ← deref grand (H.child d.flip grand)
  if ← deref temp (H.label temp) then
    let H ← deref temp ((H.setLabel parent false).setLabel temp false)
    return (H.setLabel grand true, grand)
  else
    let (H, node) ← straighten d s H node parent
    let H ← lift d s H node
    return (H, node)

-- while (node != *root && ngx_rbt_is_red(node->parent))
def insertFix (s : Ptr) : Nat → Nodes → Ptr → Option Nodes
  | 0, _, _ => none
  | n + 1, H, node =>
      if node = H.root then some H
      else do
        let parent ← deref node (H.parent node)
        if ← deref parent (H.label parent) then
          let grand ← deref parent (H.parent parent)
          let left ← deref grand (H.child .left grand)
          let (H, node) ← insertRound (if parent = left then .left else .right) s H node parent grand
          insertFix s n H node
        else return H

-- ngx_rbtree_insert with the callback tree->insert.
def insert (callback : Nat → Ptr → Nodes → Ptr → Ptr → Option Nodes) (fuel : Nat) (s : Ptr)
    (H : Nodes) (node : Ptr) : Option Nodes := do
  if H.root = s then
    let H ← deref node (H.setParent node 0)
    return (((H.setChild .left node s).setChild .right node s).setLabel node false).setRoot node
  else
    let H ← callback fuel s H H.root node
    let H ← insertFix s fuel H node
    deref H.root (H.setLabel H.root false)

-- ngx_rbtree_min
def min (s : Ptr) (H : Nodes) : Nat → Ptr → Option Ptr
  | 0, _ => none
  | n + 1, node => do
      let left ← deref node (H.child .left node)
      if left ≠ s then min s H n left else return node

-- temp->parent->right for a left child, and the mirror image.
def sibling (d : Dir) (H : Nodes) (temp : Ptr) : Option Ptr := do
  let up ← deref temp (H.parent temp)
  deref up (H.child d.flip up)

-- if (ngx_rbt_is_red(w)) { ... }
def redSibling (d : Dir) (s : Ptr) (H : Nodes) (temp w : Ptr) : Option (Nodes × Ptr) := do
  if ← deref w (H.label w) then
    let up ← deref temp (H.parent temp)
    let H ← deref up ((H.setLabel w false).setLabel up true)
    let H ← rotate d s H up
    let w ← sibling d H temp
    return (H, w)
  else return (H, w)

-- if (ngx_rbt_is_black(w->right)) { ... }
def turnSibling (d : Dir) (s : Ptr) (H : Nodes) (temp w far : Ptr) : Option (Nodes × Ptr) := do
  if ← deref far (H.label far) then return (H, w)
  else
    let near ← deref w (H.child d w)
    let H ← deref near ((H.setLabel near false).setLabel w true)
    let H ← rotate d.flip s H w
    let w ← sibling d H temp
    return (H, w)

-- w takes the color of the parent, the parent and the far child become black, and the parent is
-- rotated.
def raise (d : Dir) (s : Ptr) (H : Nodes) (temp w : Ptr) : Option Nodes := do
  let up ← deref temp (H.parent temp)
  let H ← deref up (H.setLabel w (H.label up))
  let H := H.setLabel up false
  let far ← deref w (H.child d.flip w)
  let H ← deref far (H.setLabel far false)
  rotate d s H up

-- ngx_rbt_is_black(w->left) && ngx_rbt_is_black(w->right)
def blackChildren (H : Nodes) (w : Ptr) : Option Bool := do
  let left ← deref w (H.child .left w)
  if ← deref left (H.label left) then return false
  else
    let right ← deref w (H.child .right w)
    let red ← deref right (H.label right)
    return !red

-- The rest of a round, with a black sibling w.
def blackSibling (d : Dir) (s : Ptr) (H : Nodes) (temp w : Ptr) : Option (Nodes × Ptr) := do
  if ← blackChildren H w then
    let up ← deref temp (H.parent temp)
    return (H.setLabel w true, up)
  else
    let far ← deref w (H.child d.flip w)
    let (H, w) ← turnSibling d s H temp w far
    let H ← raise d s H temp w
    return (H, H.root)

-- One round of the delete fixup for a temp on the side d of its parent.
def deleteRound (d : Dir) (s : Ptr) (H : Nodes) (temp : Ptr) : Option (Nodes × Ptr) := do
  let w ← sibling d H temp
  let (H, w) ← redSibling d s H temp w
  blackSibling d s H temp w

-- while (temp != *root && ngx_rbt_is_black(temp)), and the ngx_rbt_black(temp) behind it.
def deleteFix (s : Ptr) : Nat → Nodes → Ptr → Option Nodes
  | 0, _, _ => none
  | n + 1, H, temp =>
      if temp = H.root then deref temp (H.setLabel temp false)
      else do
        if ← deref temp (H.label temp) then return H.setLabel temp false
        else
          let up ← deref temp (H.parent temp)
          let left ← deref up (H.child .left up)
          let (H, temp) ← deleteRound (if temp = left then .left else .right) s H temp
          deleteFix s n H temp

-- The choice of subst and temp.
def substitute (fuel : Nat) (s : Ptr) (H : Nodes) (node : Ptr) : Option (Ptr × Ptr) := do
  let left ← deref node (H.child .left node)
  let right ← deref node (H.child .right node)
  if left = s then return (node, right)
  else if right = s then return (node, left)
  else
    let subst ← min s H fuel right
    let left ← deref subst (H.child .left subst)
    let right ← deref subst (H.child .right subst)
    return (subst, if left ≠ s then left else right)

-- subst takes the place of node.
def transplant (s : Ptr) (H : Nodes) (node subst : Ptr) : Option Nodes := do
  let left ← deref node (H.child .left node)
  let right ← deref node (H.child .right node)
  let H ← deref subst ((H.setChild .left subst left).setChild .right subst right)
  let H := (H.setParent subst (H.parent node)).setLabel subst (H.label node)
  let H ← replace .left H node subst
  let H ← adopt s H (H.child .left subst) subst
  adopt s H (H.child .right subst) subst

-- The pointers left to NULL in the deleted node.
def clear (H : Nodes) (node : Ptr) : Nodes :=
  ((H.setChild .left node 0).setChild .right node 0).setParent node 0

-- ngx_rbtree_delete, apart from node->key = 0.
def delete (fuel : Nat) (s : Ptr) (H : Nodes) (node : Ptr) : Option Nodes := do
  let (subst, temp) ← substitute fuel s H node
  if subst = H.root then
    let H ← deref temp ((H.setRoot temp).setLabel temp false)
    return clear H node
  else
    let red := H.label subst
    let H ← relink .left H subst temp
    let up ← deref subst (H.parent subst)
    let H ← deref temp (H.setParent temp (if subst ≠ node ∧ up = node then subst else up))
    let H ← if subst = node then some H else transplant s H node subst
    let H := clear H node
    if red then return H else deleteFix s fuel H temp

end Nginx.Rbtree
