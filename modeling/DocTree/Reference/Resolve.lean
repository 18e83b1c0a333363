import DocTree.Reference.Scheme
import DocTree.Reference.Wiki

/-!
# Resolving raw references

A raw reference is first read by its scheme. If that leaves its kind unknown, the kind is guessed
from the shape of the text: a URL, or else a document (for links inside a wiki) or an attachment
(for images). Outside of a wiki a link without scheme is always a URL. Guessed references do not
count as typed.
-/

namespace DocTree.Reference

/-- A URL if the text has that shape, and the given kind otherwise. -/
def urlOr (kind : ResourceKind) (raw : String) : Reference :=
  .ofKind raw (if SchemeReader.isUrl raw then .url else kind)

/-- The guess for a link without scheme. -/
def guessLink (inWiki : Bool) (raw : String) : Reference :=
  (if inWiki then urlOr .document raw else .ofKind raw .url).withTyped false

/-- The guess for an image without scheme. -/
def guessImage (raw : String) : Reference := (urlOr .attachment raw).withTyped false

/-- The reference itself, or a guess when its kind is unknown. -/
def orGuess (guess r : Reference) : Reference := if r.kind = .unknown then guess else r

def resolveLink (t : SchemeTable) (inWiki : Bool) (raw : String) : Reference :=
  orGuess (guessLink inWiki raw) (t.read raw)

def resolveImage (t : SchemeTable) (raw : String) : Reference :=
  orGuess (guessImage raw) (t.read raw)

end DocTree.Reference
