/-!
# The prelude

The prelude is a source that is evaluated when a session starts. It defines, in the language itself,
what a program can rely on besides the builtin operations.

## Main definitions

* `preludeSource`: the text of the prelude.
-/

namespace ConsLisp

/-- The text of the prelude. -/
def preludeSource : String :=
";; Bootstrap definitions loaded into every global environment.

(defn (not x) (if x #f #t))
(defn (null? x) (empty? x))

(defn (cadr xs) (car (cdr xs)))
(defn (caddr xs) (car (cdr (cdr xs))))

(defn (last xs)
  (if (empty? (cdr xs))
      (car xs)
      (last (cdr xs))))

;; Arguments are evaluated in order, so the value of the last one is the result
(defn (begin . forms)
  (if (empty? forms) () (last forms)))

(defn (length xs)
  (if (empty? xs) 0 (+ 1 (length (cdr xs)))))

(defn (append xs ys)
  (if (empty? xs)
      ys
      (cons (car xs) (append (cdr xs) ys))))

(defn (map f xs)
  (if (empty? xs)
      ()
      (cons (f (car xs)) (map f (cdr xs)))))

(defmacro (when test . body)
  `(if ,test (begin ,@body) ()))

(defmacro (unless test . body)
  `(if ,test () (begin ,@body)))
"

end ConsLisp
