-- The vocabulary for everyone who brings none of their own.
import ClassList.Vocabulary.Basic

namespace ClassList

namespace Utility

/-- A full name without declarations. -/
def named (value : String) : Utility := ⟨value.toList, none, none⟩

/-- A full name with its declarations. -/
def styled (value css : String) : Utility := ⟨value.toList, none, some css.toList⟩

/-- The start of a name, and what may follow it. -/
def followed (value : String) (i : Interpolation) : Utility := ⟨value.toList, some i, none⟩

end Utility

namespace Vocabulary

open Utility

def builtinScreens : List (Text × Text) := [
  ("sm".toList, "640px".toList),
  ("md".toList, "768px".toList),
  ("lg".toList, "1024px".toList),
  ("xl".toList, "1280px".toList),
  ("2xl".toList, "1536px".toList)]

def builtinVariants : List Text := [
  "hover".toList,
  "focus".toList,
  "focus-within".toList,
  "focus-visible".toList,
  "active".toList,
  "visited".toList,
  "disabled".toList,
  "checked".toList,
  "first".toList,
  "last".toList,
  "odd".toList,
  "even".toList,
  "group-hover".toList,
  "group-focus".toList,
  "dark".toList,
  "motion-safe".toList,
  "motion-reduce".toList,
  "before:".toList,
  "after:".toList,
  "first-letter:".toList,
  "first-line:".toList,
  "placeholder:".toList,
  "selection:".toList]

def builtinUtilities : List Utility := [
  styled "block" "display: block;",
  styled "inline-block" "display: inline-block;",
  styled "inline" "display: inline;",
  styled "flex" "display: flex;",
  styled "inline-flex" "display: inline-flex;",
  styled "grid" "display: grid;",
  styled "hidden" "display: none;",
  styled "contents" "display: contents;",
  styled "static" "position: static;",
  styled "fixed" "position: fixed;",
  styled "absolute" "position: absolute;",
  styled "relative" "position: relative;",
  styled "sticky" "position: sticky;",
  styled "underline" "text-decoration-line: underline;",
  styled "line-through" "text-decoration-line: line-through;",
  styled "no-underline" "text-decoration-line: none;",
  styled "uppercase" "text-transform: uppercase;",
  styled "lowercase" "text-transform: lowercase;",
  styled "capitalize" "text-transform: capitalize;",
  styled "italic" "font-style: italic;",
  styled "truncate" "overflow: hidden; text-overflow: ellipsis; white-space: nowrap;",
  styled "text-left" "text-align: left;",
  styled "text-center" "text-align: center;",
  styled "text-right" "text-align: right;",
  styled "text-justify" "text-align: justify;",
  styled "text-xs" "font-size: 0.75rem; line-height: 1rem;",
  styled "text-sm" "font-size: 0.875rem; line-height: 1.25rem;",
  styled "text-base" "font-size: 1rem; line-height: 1.5rem;",
  styled "text-lg" "font-size: 1.125rem; line-height: 1.75rem;",
  styled "text-xl" "font-size: 1.25rem; line-height: 1.75rem;",
  styled "text-2xl" "font-size: 1.5rem; line-height: 2rem;",
  followed "text-" .string,
  styled "font-thin" "font-weight: 100;",
  styled "font-light" "font-weight: 300;",
  styled "font-normal" "font-weight: 400;",
  styled "font-medium" "font-weight: 500;",
  styled "font-semibold" "font-weight: 600;",
  styled "font-bold" "font-weight: 700;",
  named "font-sans",
  named "font-serif",
  named "font-mono",
  styled "bg-transparent" "background-color: transparent;",
  followed "bg-" .string,
  styled "border" "border-width: 1px;",
  followed "border-" .string,
  styled "rounded" "border-radius: 0.25rem;",
  styled "rounded-none" "border-radius: 0px;",
  styled "rounded-full" "border-radius: 9999px;",
  followed "rounded-" .string,
  styled "ring" "box-shadow: 0 0 0 3px var(--ring-color);",
  named "ring-inset",
  followed "ring-" .number,
  followed "ring-offset-" .number,
  styled "shadow" "box-shadow: 0 1px 3px 0 rgb(0 0 0 / 0.1);",
  styled "shadow-none" "box-shadow: none;",
  followed "opacity-" .number,
  followed "z-" .number,
  followed "m-" .number,
  followed "mx-" .number,
  followed "my-" .number,
  followed "mt-" .number,
  followed "mr-" .number,
  followed "mb-" .number,
  followed "ml-" .number,
  styled "mx-auto" "margin-left: auto; margin-right: auto;",
  followed "p-" .number,
  followed "px-" .number,
  followed "py-" .number,
  followed "pt-" .number,
  followed "pr-" .number,
  followed "pb-" .number,
  followed "pl-" .number,
  followed "w-" .string,
  followed "h-" .string,
  followed "gap-" .number,
  followed "grid-cols-" .nonzero,
  followed "grid-rows-" .nonzero,
  followed "col-span-" .nonzero,
  followed "row-span-" .nonzero,
  styled "col-span-full" "grid-column: 1 / -1;",
  styled "items-start" "align-items: flex-start;",
  styled "items-center" "align-items: center;",
  styled "items-end" "align-items: flex-end;",
  styled "justify-start" "justify-content: flex-start;",
  styled "justify-center" "justify-content: center;",
  styled "justify-between" "justify-content: space-between;",
  styled "justify-end" "justify-content: flex-end;",
  styled "flex-row" "flex-direction: row;",
  styled "flex-col" "flex-direction: column;",
  styled "flex-wrap" "flex-wrap: wrap;",
  styled "flex-1" "flex: 1 1 0%;",
  styled "cursor-pointer" "cursor: pointer;",
  styled "select-none" "user-select: none;",
  styled "transition" "transition-duration: 150ms;",
  followed "duration-" .nonzero,
  styled "content-none" "content: none;",
  styled "outline-none" "outline: 2px solid transparent; outline-offset: 2px;"]

/-- The screens, variants and utilities that most projects use. -/
def builtin : Vocabulary := ⟨builtinScreens, builtinVariants, builtinUtilities⟩

end Vocabulary

end ClassList
